import EgLang.Library.Merging

/-!
# Orders of visits

When visiting the vertices of an acyclic graph yields its connected components whatever the order: exactly
when no vertex has two neighbours, and no neighbour of a vertex has neighbours itself.
-/

namespace EgLang.Library

set_option autoImplicit false

open Relation

namespace Merging
variable {κ : Type*} (next : κ → List κ)

/-- Whatever the order, the visits yield the connected components. -/
def AllRight (V : List κ) : Prop :=
  ∀ l, l.Perm V → ∀ a ∈ V, ∀ b ∈ V, visits next l a b ↔ EqvGen (Edge next V) a b

/-- No vertex has two neighbours, and no neighbour of a vertex has neighbours. -/
def Flat (V : List κ) : Prop :=
  ∀ v ∈ V, (next v).length ≤ 1 ∧ ∀ b ∈ next v, next b = []

/-- Vertices, each after its neighbours, none of which find two of these in one class. -/
inductive Forest : List κ → Prop
  | nil : Forest []
  | snoc {l : List κ} {v : κ} (h : Forest l) (hv : v ∉ l) (hnext : ∀ b ∈ next v, b ∈ l)
      (hclash : ¬ Clash (visits next l) v (next v)) : Forest (l ++ [v])

variable {next} {V l P Q : List κ} {a b u v x y : κ}

/-! ## A flat graph -/

theorem Flat.no_clash (h : Flat next V) (hl : ∀ v ∈ l, v ∈ V) (hv : v ∈ V) (hnew : v ∉ l) :
    ¬ Clash (visits next l) v (next v) := by
  obtain ⟨hlength, -⟩ := h v hv
  -- the vertex is in no class, or has no neighbours
  have hleaf : ∀ {y}, visits next l v y → next v = [] := by
    intro y hvy
    rcases visits_domain hvy with hvl | ⟨u, hu, hvu⟩
    · exact absurd hvl hnew
    · exact (h u (hl u hu)).2 v hvu
  rintro ⟨x, y, hx, hy, hne, hxy⟩
  rcases hx with rfl | hx
  · have hnil := hleaf hxy
    rcases hy with rfl | hy
    · exact hne rfl
    · simp [hnil] at hy
  · rcases hy with rfl | hy
    · have hnil := hleaf ((classes_visits l).symm hxy)
      simp [hnil] at hx
    · obtain ⟨b, hb⟩ := List.length_eq_one_iff.mp (Nat.le_antisymm hlength (List.length_pos_of_mem hx))
      rw [hb, List.mem_singleton] at hx hy
      exact hne (hx.trans hy.symm)

/-- Visits in a flat graph put a vertex and its neighbours in one class. -/
theorem Flat.visits_edge (h : Flat next V) (hl : ∀ v ∈ l, v ∈ V) (hnodup : l.Nodup) :
    ∀ v ∈ l, visits next l v v ∧ ∀ b ∈ next v, visits next l v b := by
  induction l using List.reverseRecOn with
  | nil => exact fun v hv => absurd hv List.not_mem_nil
  | append_singleton l w ih =>
    have hsub : ∀ v ∈ l, v ∈ V := fun v hv => hl v (List.mem_append_left _ hv)
    obtain ⟨hnodup, -, hdisjoint⟩ := List.nodup_append.mp hnodup
    have hw : w ∉ l := fun hw => hdisjoint w hw w (by simp) rfl
    have hR := @classes_visits _ next l
    have hclash := h.no_clash hsub (hl w (by simp)) hw
    rw [visits_concat]
    intro v hv
    rw [List.mem_append, List.mem_singleton] at hv
    rcases hv with hv | rfl
    · obtain ⟨hself, hedge⟩ := ih hsub hnodup v hv
      exact ⟨hR.visit_mono hclash hself, fun b hb => hR.visit_mono hclash (hedge b hb)⟩
    · refine ⟨visit_self hclash, fun b hb => ?_⟩
      by_cases hfresh : Fresh (visits next l) v (next v)
      · exact .inr ⟨hfresh, hit_self, .of_mem hb⟩
      · -- the vertex itself is not found, since it has a neighbour
        have hfound : visits next l b b := by
          unfold Fresh at hfresh
          push Not at hfresh
          obtain ⟨x, hx, hxx⟩ := hfresh
          rcases hx with rfl | hx
          · rcases visits_domain hxx with hvl | ⟨u, hu, hxu⟩
            · exact absurd hvl hw
            · have hnil := (h u (hsub u hu)).2 x hxu
              simp [hnil] at hb
          · obtain ⟨b', hb'⟩ := List.length_eq_one_iff.mp
              (Nat.le_antisymm (h v (hl v (by simp))).1 (List.length_pos_of_mem hx))
            rw [hb', List.mem_singleton] at hx hb
            rwa [hb, ← hx]
        exact hR.visit_found hclash hb hfound

/-- In a flat graph every order of visits is right. -/
theorem Flat.allRight (h : Flat next V) (hnodup : V.Nodup) : AllRight next V := by
  intro l hperm a ha b hb
  have hmem : ∀ v, v ∈ l ↔ v ∈ V := fun v => hperm.mem_iff
  have hedge := h.visits_edge (fun v hv => (hmem v).mp hv) (hperm.nodup_iff.mpr hnodup)
  constructor
  · intro hab
    refine (eqvGen_of_visits hab).mono fun x y hxy => ⟨(hmem x).mp hxy.1, hxy.2⟩
  · intro hab
    have hjoined := eq_or_of_eqvGen (classes_visits l)
      (fun {x y} hxy => (hedge x ((hmem x).mpr hxy.1)).2 y hxy.2) hab
    rcases hjoined with rfl | hab
    · exact (hedge a ((hmem a).mpr ha)).1
    · exact hab

/-! ## What forests keep -/

namespace Forest

theorem closed (h : Forest next l) : ∀ v ∈ l, ∀ b ∈ next v, b ∈ l := by
  induction h with
  | nil => exact fun v hv => absurd hv List.not_mem_nil
  | @snoc l v _ hv hnext hclash ih =>
    intro u hu b hb
    rw [List.mem_append, List.mem_singleton] at hu ⊢
    rcases hu with hu | rfl
    · exact .inl (ih u hu b hb)
    · exact .inl (hnext b hb)

theorem domain (h : Forest next l) (hab : visits next l a b) : a ∈ l := by
  rcases visits_domain hab with ha | ⟨v, hv, ha⟩
  · exact ha
  · exact h.closed v hv a ha

theorem edge (h : Forest next l) :
    ∀ v ∈ l, visits next l v v ∧ ∀ b ∈ next v, visits next l v b := by
  induction h with
  | nil => exact fun v hv => absurd hv List.not_mem_nil
  | @snoc l w _ hw hnext hclash ih =>
    have hR := @classes_visits _ next l
    rw [visits_concat]
    intro v hv
    rw [List.mem_append, List.mem_singleton] at hv
    rcases hv with hv | rfl
    · obtain ⟨hself, hedge⟩ := ih v hv
      exact ⟨hR.visit_mono hclash hself, fun b hb => hR.visit_mono hclash (hedge b hb)⟩
    · exact ⟨visit_self hclash, fun b hb => hR.visit_found hclash hb (ih b (hnext b hb)).1⟩

end Forest

/-- Smaller classes and fewer neighbours yield smaller classes. -/
theorem visit_le {R R' : κ → κ → Prop} {N N' : List κ} (hR : Classes R) (hle : ∀ {a b}, R' a b → R a b)
    (hN : ∀ b ∈ N', b ∈ N) (hfound : ∀ b ∈ N, R b b) (hclash : ¬ Clash R v N)
    (h : visit R' v N' a b) : visit R v N a b := by
  have hhit : ∀ {x}, Hit v N' x → visit R v N v x := by
    rintro x (rfl | hx)
    · exact visit_self hclash
    · exact hR.visit_found hclash (hN x hx) (hfound x (hN x hx))
  have htouched : ∀ {x}, Touched R' v N' x ∨ x = v → visit R v N v x := by
    rintro x (⟨y, hy, hyx⟩ | rfl)
    · exact hR.visit.trans (hhit hy) (hR.visit_mono hclash (hle hyx))
    · exact visit_self hclash
  rcases h with (⟨hab, -⟩ | ⟨-, -, ha, hb⟩) | ⟨-, ha, hb⟩
  · exact hR.visit_mono hclash (hle hab)
  · exact hR.visit.trans (hR.visit.symm (htouched ha)) (htouched hb)
  · exact hR.visit.trans (hR.visit.symm (hhit ha)) (hhit hb)

section Bridge
variable [DecidableEq κ]

/-- The graph without one edge. -/
def without (next : κ → List κ) (u a : κ) : κ → List κ :=
  Function.update next u ((next u).erase a)

theorem mem_without (hnodup : (next u).Nodup) :
    b ∈ without next u a v ↔ b ∈ next v ∧ ¬ (v = u ∧ b = a) := by
  unfold without
  by_cases hv : v = u
  · subst hv
    rw [Function.update_self, hnodup.mem_erase_iff]
    simp [and_comm]
  · rw [Function.update_of_ne hv]
    simp [hv]

/-- Without one edge a forest is a forest, with smaller classes, and the ends of the edge are apart. -/
theorem Forest.without (h : Forest next l) (hnodup : (next u).Nodup) (ha : a ∈ next u) :
    Forest (without next u a) l ∧
      (∀ {x y}, visits (Merging.without next u a) l x y → visits next l x y) ∧
        ¬ visits (Merging.without next u a) l u a := by
  have hsub : ∀ {v b}, b ∈ Merging.without next u a v → b ∈ next v :=
    fun hb => ((mem_without hnodup).mp hb).1
  induction h with
  | nil => exact ⟨.nil, fun h => h, fun h => h⟩
  | @snoc l v hforest hv hnext hclash ih =>
    obtain ⟨hforest', hle, hapart⟩ := ih
    have hR := @classes_visits _ next l
    have hR' := @classes_visits _ (Merging.without next u a) l
    have hclash' : ¬ Clash (visits (Merging.without next u a) l) v (Merging.without next u a v) := by
      rintro ⟨x, y, hx, hy, hne, hxy⟩
      exact hclash ⟨x, y, hx.imp_right hsub, hy.imp_right hsub, hne, hle hxy⟩
    refine ⟨.snoc hforest' hv (fun b hb => hnext b (hsub hb)) hclash', ?_, ?_⟩
    · intro x y hxy
      rw [visits_concat] at hxy ⊢
      exact visit_le hR hle (fun b hb => hsub hb) (fun b hb => (hforest.edge b (hnext b hb)).1) hclash hxy
    · rw [visits_concat]
      intro hua
      by_cases hvu : v = u
      · subst hvu
        have hne : a ≠ v := fun h => hv (h ▸ hnext a ha)
        have hnot : a ∉ Merging.without next v a v := by simp [mem_without hnodup]
        rcases hua with (⟨hua, -⟩ | ⟨-, -, -, ⟨x, hx | hx, hxa⟩ | hav⟩) | ⟨-, -, hav | hav⟩
        · exact hapart hua
        · subst hx
          exact hapart hxa
        · have hxne : x ≠ a := fun h => hnot (h ▸ hx)
          exact hclash ⟨x, a, .of_mem (hsub hx), .of_mem ha, hxne, hle hxa⟩
        · exact hne hav
        · exact hne hav
        · exact hnot hav
      · have hjoin : ∀ {x}, visit (visits (Merging.without next u a) l) v
            (Merging.without next u a v) x a → x = u → u ∈ l := by
          rintro x hxa rfl
          rcases hxa with (⟨hxa, -⟩ | ⟨-, -, ⟨z, -, hzx⟩ | hxv, -⟩) | ⟨-, hxv | hxv, -⟩
          · exact hforest'.domain hxa
          · exact hforest'.domain (hR'.symm hzx)
          · exact absurd hxv.symm hvu
          · exact absurd hxv.symm hvu
          · exact hnext x (hsub hxv)
        have hul := hjoin hua rfl
        have hal : a ∈ l := hforest.closed u hul a ha
        have huu := (hforest'.edge u hul).1
        rcases hua with (⟨hua, -⟩ | ⟨-, -, hu, hav⟩) | ⟨hfresh, huv, -⟩
        · exact hapart hua
        · obtain ⟨x, hx, hxu⟩ := hu.resolve_right fun h => hvu h.symm
          obtain ⟨y, hy, hya⟩ := hav.resolve_right fun h => hv (h ▸ hal)
          -- both ends are touched, so both are in the class of one neighbour
          have hxy : visits next l x y :=
            hR.trans (hle hxu) (hR.trans ((hforest.edge u hul).2 a ha) (hR.symm (hle hya)))
          by_cases hne : x = y
          · subst hne
            exact hapart (hR'.trans (hR'.symm hxu) hya)
          · exact hclash ⟨x, y, hx.imp_right hsub, hy.imp_right hsub, hne, hxy⟩
        · exact hfresh u huv huu

/-- Each edge of a forest is a bridge. -/
theorem Forest.bridge (h : Forest next l) (hnodup : (next u).Nodup) (ha : a ∈ next u) (hu : u ∈ l) :
    ¬ EqvGen (fun x y => Edge next l x y ∧ ¬ (x = u ∧ y = a)) u a := by
  obtain ⟨hforest, -, hapart⟩ := h.without hnodup ha
  intro hjoined
  have hor := eq_or_of_eqvGen (classes_visits l) (fun {x y} hxy =>
    (hforest.edge x hxy.1.1).2 y ((mem_without hnodup).mpr ⟨hxy.1.2, hxy.2⟩)) hjoined
  rcases hor with rfl | hua
  · exact hapart (hforest.edge u hu).1
  · exact hapart hua

end Bridge

/-! ## Orders that go wrong -/

/-- Not every order is right, if some visits end in no class at all. The last of them is made first
instead, after all the others: what it loses then does not come back. -/
theorem not_allRight_of_lost (hright : AllRight next V) (hnodup : V.Nodup)
    (hperm : (P ++ x :: Q).Perm V) (hlost : visits next (P ++ [x]) = fun _ _ => False)
    (hb : b ∈ next x) (hbV : b ∈ V) (hne : x ≠ b) (hP : ∀ y ∈ P, x ∉ next y) : False := by
  have hx : x ∈ V := hperm.mem_iff.mp (by simp)
  have hxb : visits next Q x b := by
    have hall := (hright (P ++ x :: Q) hperm x hx b hbV).mpr (.rel _ _ ⟨hx, hb⟩)
    have hsplit : P ++ x :: Q = P ++ [x] ++ Q := by simp
    rwa [hsplit, visits_append hlost] at hall
  have hR := @classes_visits _ next Q
  have hgone : ∀ y, ¬ visits next (Q ++ [x]) x y := by
    intro y hxy
    rw [visits_concat, hR.visit_clash ⟨x, b, hit_self, .of_mem hb, hne, hxb⟩] at hxy
    exact hxy.2 ⟨x, hit_self, hR.left hxy.1⟩
  have hxP : x ∉ P := by
    have h := hperm.nodup_iff.mpr hnodup
    intro hx
    exact (List.nodup_append.mp h).2.2 x hx x (by simp) rfl
  have hperm' : (Q ++ [x] ++ P).Perm V :=
    List.perm_append_comm.trans (((List.perm_append_singleton x Q).append_left P).trans hperm)
  exact visits_lost hgone hxP hP x ((hright _ hperm' x hx x hx).mpr (.refl x))

/-- If every order is right, vertices that are visited after their neighbours form a forest. -/
theorem forest_of_allRight (hright : AllRight next V) (hnodup : V.Nodup)
    (hclosed : ∀ v ∈ V, ∀ b ∈ next v, b ∈ V) {rank : κ → ℕ}
    (hrank : ∀ v ∈ V, ∀ b ∈ next v, rank b < rank v) {L : List κ} (hL : L.Perm V)
    (hsorted : L.Pairwise fun x y => rank x ≤ rank y) ( hprefix : l <+: L) : Forest next l := by
  classical
  induction l using List.reverseRecOn with
  | nil => exact .nil
  | append_singleton l v ih =>
    have hforest := ih ((List.prefix_append l [v]).trans hprefix)
    obtain ⟨Q, rfl⟩ := hprefix
    rw [List.append_assoc, List.singleton_append] at hL hsorted
    obtain ⟨-, hnodupQ, hdisjoint⟩ := List.nodup_append.mp (hL.nodup_iff.mpr hnodup)
    have hvV : v ∈ V := hL.mem_iff.mp (by simp)
    have hv : v ∉ l := fun h => hdisjoint v h v (by simp) rfl
    have hnext : ∀ b ∈ next v, b ∈ l := by
      intro b hb
      have hlt := hrank v hvV b hb
      have hmem := hL.mem_iff.mpr (hclosed v hvV b hb)
      rw [List.mem_append, List.mem_cons] at hmem
      rcases hmem with hmem | rfl | hmem
      · exact hmem
      · exact absurd hlt (lt_irrefl _)
      · have hle := (List.pairwise_cons.mp (List.pairwise_append.mp hsorted).2.1).1 b hmem
        exact absurd hlt (not_lt.mpr hle)
    have hR := @classes_visits _ next l
    refine .snoc hforest hv hnext fun hclash => ?_
    -- only the components that this visit touches, and they are all lost
    let K := fun u => Touched (visits next l) v (next v) u
    have hK : ∀ u ∈ l, ∀ b ∈ next u, (K u ↔ K b) := fun u hu b hb =>
      hR.touched_iff ((hforest.edge u hu).2 b hb)
    have hlost : visits next (l.filter K ++ [v]) = fun _ _ => False := by
      funext a b
      refine eq_false fun hab => ?_
      have hiff : ∀ {a b}, visits next (l.filter K) a b ↔ visits next l a b ∧ K a := visits_filter hK
      have hR' := @classes_visits _ next (l.filter K)
      obtain ⟨x, y, hx, hy, hne, hxy⟩ := hclash
      have hclash' : Clash (visits next (l.filter K)) v (next v) :=
        ⟨x, y, hx, hy, hne, hiff.mpr ⟨hxy, x, hx, hR.left hxy⟩⟩
      rw [visits_concat, hR'.visit_clash hclash'] at hab
      obtain ⟨hab, hnot⟩ := hab
      obtain ⟨z, hz, hza⟩ := (hiff.mp hab).2
      exact hnot ⟨z, hz, hiff.mpr ⟨hza, z, hz, hR.left hza⟩⟩
    obtain ⟨b, hb, hne⟩ : ∃ b ∈ next v, v ≠ b := by
      obtain ⟨x, y, hx, hy, hne, -⟩ := hclash
      rcases hx with rfl | hx
      · exact ⟨y, hy.resolve_left fun h => hne h.symm, hne⟩
      · exact ⟨x, hx, fun h => hv (h ▸ hnext x hx)⟩
    have hperm : (l.filter K ++ v :: (l.filter (fun u => !decide (K u)) ++ Q)).Perm V := by
      refine List.Perm.trans ?_ hL
      refine List.perm_middle.trans ?_
      rw [← List.append_assoc]
      exact ((List.filter_append_perm (fun u => decide (K u)) l).append_right Q).cons v |>.trans
        List.perm_middle.symm
    refine not_allRight_of_lost hright hnodup hperm hlost hb (hclosed v hvV b hb) hne ?_
    intro y hy hvy
    exact hv (hforest.closed y (List.mem_filter.mp hy).1 v hvy)

/-- Not every order is right, if in some order a neighbour is not found while another is, and the graph
is a forest: the edge that is passed over is a bridge. -/
theorem not_allRight_of_skipped [DecidableEq κ] (hright : AllRight next V) (hnodup : V.Nodup)
    (hclosed : ∀ v ∈ V, ∀ b ∈ next v, b ∈ V) {L : List κ} (hL : L.Perm V) (hforest : Forest next L)
    (hnodupN : ∀ v, (next v).Nodup) {p q : κ} (hp : p ∈ V) (hq : q ∈ V) (hpq : p ≠ q)
    (ha : a ∈ next q) (hfound : ∃ x, Hit q (next q) x ∧ Hit p (next p) x)
    (hskip : ¬ Hit p (next p) a) : False := by
  have hbridge := hforest.bridge (hnodupN q) ha (hL.mem_iff.mpr hq)
  have hperm : (p :: q :: (V.erase p).erase q).Perm V := by
    have hq' : q ∈ V.erase p := (List.mem_erase_of_ne (Ne.symm hpq)).mpr hq
    exact ((List.perm_cons_erase hq').symm.cons p).trans (List.perm_cons_erase hp).symm
  have hone : ∀ {x y}, visits next [p] x y ↔ Hit p (next p) x ∧ Hit p (next p) y := by
    intro x y
    have hempty : Classes (fun _ _ : κ => False) := ⟨fun h => h, fun h _ => h⟩
    have hfresh : Fresh (fun _ _ : κ => False) p (next p) := fun _ _ h => h
    have hstep : visits next [p] = visit (fun _ _ => False) p (next p) := visits_concat (l := [])
    rw [hstep]
    constructor
    · rintro (h | ⟨-, hx, hy⟩)
      · exact absurd ((hempty.merge_of_fresh hfresh).mp h) id
      · exact ⟨hx, hy⟩
    · rintro ⟨hx, hy⟩
      exact .inr ⟨hfresh, hx, hy⟩
  have hedge : ∀ v ∈ V, ∀ b ∈ next v, ¬ (v = q ∧ b = a) →
      EqvGen (fun x y => Edge next L x y ∧ ¬ (x = q ∧ y = a)) v b := fun v hv b hb hne =>
    .rel _ _ ⟨⟨hL.mem_iff.mpr hv, hb⟩, hne⟩
  have hsound : ∀ {x y}, visits next [p, q] x y →
      EqvGen (fun x y => Edge next L x y ∧ ¬ (x = q ∧ y = a)) x y := by
    intro x y hxy
    have hstep : visits next [p, q] = visit (visits next [p]) q (next q) :=
      visits_concat (l := [p])
    rw [hstep] at hxy
    refine visit_sound (classes_visits [p]) ?_ ?_ hxy
    · intro x y hxy
      obtain ⟨hx, hy⟩ := hone.mp hxy
      have hpx : ∀ {x}, Hit p (next p) x →
          EqvGen (fun x y => Edge next L x y ∧ ¬ (x = q ∧ y = a)) p x := by
        rintro x (rfl | hx)
        · exact .refl x
        · exact hedge p hp x hx fun h => hpq h.1
      exact ((hpx hx).symm _ _).trans _ _ _ (hpx hy)
    · intro b hb hor
      refine hedge q hq b hb ?_
      rintro ⟨-, rfl⟩
      rcases hor with hfresh | hbb
      · obtain ⟨x, hx, hpx⟩ := hfound
        exact hfresh x hx (hone.mpr ⟨hpx, hpx⟩)
      · exact hskip (hone.mp hbb).1
  have hjoined : visits next ([p, q] ++ (V.erase p).erase q) q a :=
    (hright _ hperm q hq a (hclosed q hq a ha)).mpr (.rel _ _ ⟨hq, ha⟩)
  refine hbridge (visits_sound hsound (fun v hv b hb => ?_) hjoined)
  have hv' : v ∈ V := List.mem_of_mem_erase (List.mem_of_mem_erase hv)
  refine hedge v hv' b hb ?_
  rintro ⟨rfl, -⟩
  exact (hnodup.erase p).not_mem_erase hv

/-- **Main result.** In an acyclic graph, every order of visits yields the connected components if and
only if no vertex has two neighbours and no neighbour of a vertex has neighbours. -/
theorem allRight_iff (hnodup : V.Nodup) (hclosed : ∀ v ∈ V, ∀ b ∈ next v, b ∈ V)
    (hnodupN : ∀ v, (next v).Nodup) {rank : κ → ℕ}
    (hrank : ∀ v ∈ V, ∀ b ∈ next v, rank b < rank v) : AllRight next V ↔ Flat next V := by
  classical
  refine ⟨fun hright v hv => ?_, fun h => h.allRight hnodup⟩
  let L := V.mergeSort fun x y => decide (rank x ≤ rank y)
  have hL : L.Perm V := List.mergeSort_perm V _
  have hsorted : L.Pairwise fun x y => rank x ≤ rank y := by
    have h := @List.pairwise_mergeSort _ (fun x y => decide (rank x ≤ rank y))
      (fun a b c hab hbc => by
        simp only [decide_eq_true_eq] at hab hbc ⊢
        exact hab.trans hbc)
      (fun a b => by
        simp only [Bool.or_eq_true, decide_eq_true_eq]
        exact le_total _ _) V
    exact h.imp fun hab => by simpa using hab
  have hforest : Forest next L :=
    forest_of_allRight hright hnodup hclosed hrank hL hsorted List.prefix_rfl
  have hne : ∀ v ∈ V, ∀ b ∈ next v, v ≠ b := by
    rintro v hv b hb rfl
    exact absurd (hrank v hv v hb) (lt_irrefl _)
  -- two edges that make a detour around a third
  have hdetour : ∀ {u a x}, u ∈ V → a ∈ next u →
      EqvGen (fun x y => Edge next L x y ∧ ¬ (x = u ∧ y = a)) u x →
      ¬ EqvGen (fun x y => Edge next L x y ∧ ¬ (x = u ∧ y = a)) x a := fun hu ha hux hxa =>
    hforest.bridge (hnodupN _) ha (hL.mem_iff.mpr hu) (hux.trans _ _ _ hxa)
  constructor
  · by_contra hlength
    cases hnext : next v with
    | nil => simp [hnext] at hlength
    | cons b rest =>
      cases rest with
      | nil => simp [hnext] at hlength
      | cons a rest =>
        have hb : b ∈ next v := by simp [hnext]
        have ha : a ∈ next v := by simp [hnext]
        have hba : b ≠ a := by
          rintro rfl
          have := hnodupN v
          simp [hnext] at this
        have hbV := hclosed v hv b hb
        refine not_allRight_of_skipped hright hnodup hclosed hL hforest hnodupN hbV hv
          (hne v hv b hb).symm ha ⟨b, .of_mem hb, hit_self⟩ ?_
        rintro (hab | hab)
        · exact hba hab.symm
        · refine hdetour hv ha (.rel _ _ ⟨⟨hL.mem_iff.mpr hv, hb⟩, fun h => hba h.2⟩)
            (.rel _ _ ⟨⟨hL.mem_iff.mpr hbV, hab⟩, fun h => hne v hv b hb h.1.symm⟩)
  · intro b hb
    by_contra hnil
    obtain ⟨a, ha⟩ := List.exists_mem_of_ne_nil _ hnil
    have hbV := hclosed v hv b hb
    have hvb := hne v hv b hb
    have hback : EqvGen (fun x y => Edge next L x y ∧ ¬ (x = b ∧ y = a)) b v :=
      .symm _ _ (.rel _ _ ⟨⟨hL.mem_iff.mpr hv, hb⟩, fun h => hvb h.1⟩)
    refine not_allRight_of_skipped hright hnodup hclosed hL hforest hnodupN hv hbV hvb ha
      ⟨b, hit_self, .of_mem hb⟩ ?_
    rintro (rfl | hav)
    · exact hdetour hbV ha hback (.refl a)
    · exact hdetour hbV ha hback (.rel _ _ ⟨⟨hL.mem_iff.mpr hv, hav⟩, fun h => hvb h.1⟩)

end Merging

end EgLang.Library
