import EgLang.Runtime.BufferPlacement

/-! # Generated names

The names of actions, of buffers and of data members are made of the identifiers on the way to an
action, joined by underscores. An identifier may hold underscores of its own: a joined name tells which
words stand between underscores, not which of them are one identifier.
-/

namespace EgLang.Runtime
open Library
set_option autoImplicit false

/-! ## Words -/

/-- The parts of a text between underscores. -/
def words (s : String) : List (List Char) := s.toList.splitOn '_'

def pathWords (path : List String) : List (List Char) := path.flatMap words

/-- What `generateName` puts after its first character. -/
def joined (path : List String) : List Char := path.flatMap fun identifier => '_' :: identifier.toList

theorem splitOn_append_joined (s : List Char) (path : List String) :
    (s ++ joined path).splitOn '_' = s.splitOn '_' ++ pathWords path := by
  induction path generalizing s with
  | nil => simp [joined, pathWords]
  | cons identifier path ih =>
    have hsplit : joined (identifier :: path) = '_' :: (identifier.toList ++ joined path) := rfl
    rw [hsplit, List.splitOn_eq_splitOnP, List.splitOnP_append_cons _ _ (by simp),
      ← List.splitOn_eq_splitOnP, ← List.splitOn_eq_splitOnP, ih]
    rfl

theorem toList_generateName (c : Char) (path : List String) :
    (generateName c path).toList = c :: joined path := by
  have hjoin : (String.join (path.map ("_" ++ ·))).toList = joined path := by
    induction path with
    | nil => rfl
    | cons identifier path ih =>
      rw [List.map_cons, String.join_cons, String.toList_append, ih, String.toList_append]
      rfl
  rw [generateName, String.toList_append, String.toList_singleton, hjoin]
  rfl

/-- **Joined names** are equal when the identifiers have the same words. -/
theorem generateName_inj (c : Char) (path path' : List String) :
    generateName c path = generateName c path' ↔ pathWords path = pathWords path' := by
  have hsplit : ∀ q, (generateName c q).toList.splitOn '_' = [c].splitOn '_' ++ pathWords q := by
    intro q
    rw [toList_generateName]
    exact splitOn_append_joined [c] q
  constructor
  · intro h
    have heq := congrArg (fun s : String => s.toList.splitOn '_') h
    simp only [hsplit] at heq
    exact List.append_cancel_left heq
  · intro h
    have heq : (generateName c path).toList.splitOn '_' = (generateName c path').toList.splitOn '_' := by
      rw [hsplit, hsplit, h]
    have htext := congrArg (List.intercalate ['_']) heq
    rw [List.intercalate_splitOn, List.intercalate_splitOn] at htext
    exact String.toList_inj.mp htext

/-- A suffix is one more identifier. -/
theorem generateName_append (c : Char) (path : List String) (identifier : String) :
    generateName c path ++ ("_" ++ identifier) = generateName c (path ++ [identifier]) := by
  apply String.toList_inj.mp
  rw [String.toList_append, toList_generateName, toList_generateName, joined, joined,
    List.flatMap_append, String.toList_append]
  simp

theorem pathWords_append (path path' : List String) :
    pathWords (path ++ path') = pathWords path ++ pathWords path' := List.flatMap_append

/-! ## The names of actions -/

/-- `getIdentifier`. -/
def Element.getIdentifier : Element → String
  | .action identifier _ _ => identifier
  | .dimensionUser identifier _ => identifier
  | .dimensionGenerated _ => ""

/-- The identifiers on the way to a place, below the root. -/
def identifiersAt : ElementTree → List ℕ → List String
  | _, [] => []
  | t, i :: k =>
    match t.children[i]? with
    | some child => child.label.getIdentifier :: identifiersAt child k
    | none => []

theorem identifiersAt_concat {t s : ElementTree} {k : List ℕ} {i : ℕ}
    (h : t.get? (k ++ [i]) = some s) :
    identifiersAt t (k ++ [i]) = identifiersAt t k ++ [s.label.getIdentifier] := by
  induction k generalizing t with
  | nil =>
    rw [List.nil_append, RoseTree.get?_cons] at h
    obtain ⟨child, hchild, h⟩ := Option.bind_eq_some_iff.mp h
    obtain rfl : child = s := by simpa using h
    simp [identifiersAt, hchild]
  | cons j k ih =>
    rw [List.cons_append, RoseTree.get?_cons] at h
    obtain ⟨child, hchild, h⟩ := Option.bind_eq_some_iff.mp h
    rw [List.cons_append, identifiersAt, identifiersAt, hchild]
    dsimp only
    rw [ih h, List.cons_append]

/-- `calculateInstanceActionName`, with the name of the parent. -/
def calculateInstanceActionName (parentName identifier : String) : String :=
  if parentName = "" then identifier else parentName ++ "_" ++ identifier

namespace InstanceTree
variable (p : InstanceTree)

def identifiers (k : List ℕ) : List String := identifiersAt p.root k

/-- `concrete::Action::getName`: the names are given from the root down, whose own is empty. -/
def getName (k : List ℕ) : String := (p.identifiers k).foldl calculateInstanceActionName ""

/-- There is an action at a place. -/
def IsAction (k : List ℕ) : Prop := ∃ s, p.root.get? k = some s ∧ s.label.isAction = true

end InstanceTree

theorem calculateInstanceActionName_ne_empty {parentName identifier : String} (h : identifier ≠ "") :
    calculateInstanceActionName parentName identifier ≠ "" := by
  unfold calculateInstanceActionName
  split
  · exact h
  · intro heq
    have hlist := congrArg String.toList heq
    simp at hlist

theorem foldl_name_ne_empty {path : List String} (hne : ∀ s ∈ path, s ≠ "") (hpath : path ≠ []) :
    path.foldl calculateInstanceActionName "" ≠ "" := by
  induction path using List.reverseRecOn with
  | nil => exact absurd rfl hpath
  | append_singleton path identifier ih =>
    rw [List.foldl_append, List.foldl_cons, List.foldl_nil]
    exact calculateInstanceActionName_ne_empty
      (hne identifier (List.mem_append_right _ List.mem_cons_self))

/-- The name of an action below the root is what a generated name has after its first character and an
underscore. -/
theorem generateName_eq_foldl {path : List String} (hne : ∀ s ∈ path, s ≠ "") (hpath : path ≠ [])
    (c : Char) : generateName c path =
      String.singleton c ++ "_" ++ path.foldl calculateInstanceActionName "" := by
  induction path using List.reverseRecOn with
  | nil => exact absurd rfl hpath
  | append_singleton path identifier ih =>
    have hbefore : ∀ s ∈ path, s ≠ "" := fun s hs => hne s (List.mem_append_left _ hs)
    rw [List.foldl_append, List.foldl_cons, List.foldl_nil, ← generateName_append]
    by_cases hempty : path = []
    · subst hempty
      simp [generateName, calculateInstanceActionName, String.append_assoc]
    · rw [ih hbefore hempty, calculateInstanceActionName, if_neg (foldl_name_ne_empty hbefore hempty)]
      simp only [String.append_assoc]

/-- Two actions have one name when their identifiers have the same words. -/
theorem foldl_name_inj {path path' : List String} (hne : ∀ s ∈ path, s ≠ "")
    (hne' : ∀ s ∈ path', s ≠ "") : path.foldl calculateInstanceActionName "" =
      path'.foldl calculateInstanceActionName "" ↔ pathWords path = pathWords path' := by
  by_cases hpath : path = []
  · by_cases hpath' : path' = []
    · simp [hpath, hpath']
    · refine iff_of_false ?_ ?_
      · rw [hpath, List.foldl_nil]
        exact fun h => foldl_name_ne_empty hne' hpath' h.symm
      · rw [← generateName_inj 'g', hpath, generateName_eq_foldl hne' hpath']
        intro h
        have hlist := congrArg String.toList h
        simp [generateName] at hlist
  · by_cases hpath' : path' = []
    · refine iff_of_false ?_ ?_
      · rw [hpath', List.foldl_nil]
        exact foldl_name_ne_empty hne hpath
      · rw [← generateName_inj 'g', hpath', generateName_eq_foldl hne hpath]
        intro h
        have hlist := congrArg String.toList h
        simp [generateName] at hlist
    · rw [← generateName_inj 'g', generateName_eq_foldl hne hpath, generateName_eq_foldl hne' hpath',
        String.append_right_inj]

/-! ## The names in a layout -/

def complexSuffix (simple : Bool) : List String := if simple then [] else ["complex"]

namespace InstanceTree
variable {p : InstanceTree}

/-- A buffer has the names of its action, and its data members, of which there are some, those of their
dimensions. -/
structure Named (p : InstanceTree) (b : Buffer) : Prop where
  nonempty : b.dataMembers ≠ []
  name : b.name = generateName 'b' (p.identifiers b.context ++ complexSuffix b.simple)
  variableName : b.variableName = generateName 'g' (p.identifiers b.context ++ complexSuffix b.simple)
  members : ∀ m ∈ b.dataMembers, ∃ s, p.root.get? m.dimension = some s ∧
    dataMemberName (generateName 'g' (p.identifiers b.context)) s.label = .ok m.name

theorem newBuffer_name (k : List ℕ) (path : List String) (size : ℕ) (simple : Bool) :
    (newBuffer k path size simple).name = generateName 'b' (path ++ complexSuffix simple) ∧
      (newBuffer k path size simple).variableName = generateName 'g' (path ++ complexSuffix simple) := by
  cases simple with
  | true => simp [newBuffer, complexSuffix]
  | false =>
    rw [complexSuffix, if_neg Bool.false_ne_true, ← generateName_append, ← generateName_append]
    exact ⟨rfl, rfl⟩

theorem nonempty_addDataMember {new : Bool → Buffer} {buffers : List Buffer} {m : DataMember}
    (h : ∀ b ∈ buffers, b.dataMembers ≠ []) : ∀ b ∈ addDataMember new buffers m, b.dataMembers ≠ [] := by
  have hpush : ∀ b : Buffer, (b.push m).dataMembers ≠ [] := fun b =>
    List.append_ne_nil_of_right_ne_nil _ (List.cons_ne_nil m [])
  intro b hb
  rw [addDataMember] at hb
  split at hb
  · obtain ⟨b', hb', rfl⟩ := List.mem_map.mp hb
    split
    · exact hpush b'
    · exact h b' hb'
  · rcases List.mem_append.mp hb with hb | hb
    · exact h b hb
    · rw [List.mem_singleton.mp hb]
      exact hpush _

theorem nonempty_foldl {new : Bool → Buffer} (ms : List DataMember) {buffers : List Buffer}
    (h : ∀ b ∈ buffers, b.dataMembers ≠ []) :
    ∀ b ∈ ms.foldl (addDataMember new) buffers, b.dataMembers ≠ [] := by
  induction ms generalizing buffers with
  | nil => exact h
  | cons m ms ih => exact ih (nonempty_addDataMember h)

/-- What tells the buffers apart besides their names. -/
def slot (b : Buffer) : List ℕ × Bool := (b.context, b.simple)

/-- The buffers of an action and of those below it. -/
structure NamedBelow (p : InstanceTree) (k : List ℕ) (bs : List Buffer) : Prop where
  named : ∀ b ∈ bs, p.Named b
  below : ∀ b ∈ bs, k <+: b.context
  slots : (bs.map slot).Nodup

theorem named_layoutAction {k : List ℕ} {szSize : ℕ} {label : Element} {ts : List ElementTree}
    {l l' : Layout} (hk : p.root.get? k = some (.node label ts))
    (h : layoutAction k (p.identifiers k) szSize label ts l = .ok l') :
    ∃ bs, l'.buffers = l.buffers ++ bs ∧ p.NamedBelow k bs ∧ ∀ b ∈ bs, b.context = k := by
  rw [layoutAction, except_bind_ok] at h
  obtain ⟨ms, hms, h⟩ := h
  split at h
  · cases h
  obtain rfl := Except.ok.inj h
  have hbuffers := @buffersOf_foldl (newBuffer k (p.identifiers k) (szSize * label.size))
    (fun _ => ⟨rfl, rfl⟩) ms
  have hcontext : ∀ b ∈ ms.foldl (addDataMember (newBuffer k (p.identifiers k) (szSize * label.size))) [],
      b.context = k := fun b hb => congrArg Buffer.context (hbuffers.fields b hb)
  refine ⟨_, rfl, ⟨fun b hb => ?_, fun b hb => ?_, ?_⟩, hcontext⟩
  · have hfields := hbuffers.fields b hb
    obtain ⟨hname, hvariable⟩ := newBuffer_name k (p.identifiers k) (szSize * label.size) b.simple
    refine ⟨nonempty_foldl ms (by simp) b hb, ?_, ?_, fun m hm => ?_⟩
    · have hsame := congrArg Buffer.name hfields
      dsimp only at hsame
      rw [hsame, hname, hcontext b hb]
    · have hsame := congrArg Buffer.variableName hfields
      dsimp only at hsame
      rw [hsame, hvariable, hcontext b hb]
    · have hmem : m ∈ ms := hbuffers.members.subset (List.mem_flatMap.mpr ⟨b, hb, hm⟩)
      obtain ⟨e, he, hm'⟩ := exists_of_mem_mapM hms hmem
      obtain ⟨j, t, ht, -, rfl⟩ := mem_dimensionsFrom.mp he
      obtain ⟨name, hname, hm'⟩ := except_bind_ok.mp hm'
      obtain rfl := Except.ok.inj hm'
      refine ⟨t, ?_, hcontext b hb ▸ hname⟩
      show p.root.get? (k ++ [0 + j]) = some t
      rw [Nat.zero_add, RoseTree.get?_concat, hk]
      exact ht
  · rw [hcontext b hb]
  · refine List.Nodup.of_map Prod.snd ?_
    rw [List.map_map]
    exact hbuffers.kinds

/-- Every buffer that the recursion adds is named after its action, and an action has one of each kind. -/
theorem named_recurseInstances {k : List ℕ} {szSize : ℕ} {t : ElementTree} {l l' : Layout}
    (hk : p.root.get? k = some t) (h : recurseInstances k (p.identifiers k) szSize t l = .ok l') :
    ∃ bs, l'.buffers = l.buffers ++ bs ∧ p.NamedBelow k bs := by
  induction t using RoseTree.tree_induction generalizing k szSize l l' with
  | step label ts ih =>
    have hchildren : ∀ {us : List ElementTree} {i : ℕ} {l l' : Layout}, (∀ u ∈ us, u ∈ ts) →
        (∀ j u, us[j]? = some u → p.root.get? (k ++ [i + j]) = some u) →
        recurseChildren k (p.identifiers k) (szSize * label.size) i us l = .ok l' →
        ∃ bs, l'.buffers = l.buffers ++ bs ∧ p.NamedBelow k bs ∧
          ∀ b ∈ bs, ∃ j, i ≤ j ∧ k ++ [j] <+: b.context := by
      intro us
      induction us with
      | nil =>
        intro i l l' _ _ h
        obtain rfl := Except.ok.inj h
        exact ⟨[], (List.append_nil _).symm, ⟨by simp, by simp, List.nodup_nil⟩, by simp⟩
      | cons u us ihus =>
        intro i l l' hmem hplace h
        have hu : p.root.get? (k ++ [i]) = some u := hplace 0 u rfl
        have hrest : ∀ {l₁}, recurseChildren k (p.identifiers k) (szSize * label.size) (i + 1) us l₁ =
            .ok l' → ∃ bs, l'.buffers = l₁.buffers ++ bs ∧ p.NamedBelow k bs ∧
              ∀ b ∈ bs, ∃ j, i + 1 ≤ j ∧ k ++ [j] <+: b.context := fun h =>
          ihus (fun v hv => hmem v (List.mem_cons_of_mem u hv)) (fun j v hv => by
            have := hplace (j + 1) v hv
            rwa [← Nat.add_assoc, Nat.add_right_comm] at this) h
        have hskip : recurseChildren k (p.identifiers k) (szSize * label.size) (i + 1) us l = .ok l' →
            ∃ bs, l'.buffers = l.buffers ++ bs ∧ p.NamedBelow k bs ∧
              ∀ b ∈ bs, ∃ j, i ≤ j ∧ k ++ [j] <+: b.context := by
          intro h
          obtain ⟨bs, hbs, hnamed, hlater⟩ := hrest h
          refine ⟨bs, hbs, hnamed, fun b hb => ?_⟩
          obtain ⟨j, hj, hctx⟩ := hlater b hb
          exact ⟨j, Nat.le_of_succ_le hj, hctx⟩
        rw [recurseChildren] at h
        cases hlabel : u.label with
        | dimensionUser identifier simple =>
          rw [hlabel] at h
          exact hskip h
        | dimensionGenerated type =>
          rw [hlabel] at h
          exact hskip h
        | action identifier context size =>
          rw [hlabel] at h
          obtain ⟨l₁, hl₁, h⟩ := except_bind_ok.mp h
          have hpath : p.identifiers k ++ [identifier] = p.identifiers (k ++ [i]) := by
            rw [identifiers, identifiers, identifiersAt_concat hu, hlabel]
            rfl
          rw [hpath] at hl₁
          obtain ⟨bs, hbs, hnamed⟩ := ih u (hmem u List.mem_cons_self) hu hl₁
          obtain ⟨bs', hbs', hnamed', hlater⟩ := hrest h
          refine ⟨bs ++ bs', ?_, ⟨?_, ?_, ?_⟩, ?_⟩
          · rw [hbs', hbs, List.append_assoc]
          · intro b hb
            exact (List.mem_append.mp hb).elim (hnamed.named b) (hnamed'.named b)
          · intro b hb
            refine (List.mem_append.mp hb).elim (fun hb => ?_) (hnamed'.below b)
            exact (List.prefix_append k [i]).trans (hnamed.below b hb)
          · rw [List.map_append, List.nodup_append']
            refine ⟨hnamed.slots, hnamed'.slots, fun e he he' => ?_⟩
            obtain ⟨b, hb, rfl⟩ := List.mem_map.mp he
            obtain ⟨b', hb', heq⟩ := List.mem_map.mp he'
            obtain ⟨j, hj, hctx⟩ := hlater b' hb'
            have hsame : b'.context = b.context := congrArg Prod.fst heq
            rw [hsame] at hctx
            have hboth := List.prefix_of_prefix_length_le (hnamed.below b hb) hctx (by simp)
            have hij : i = j := by simpa using hboth.eq_of_length (by simp)
            omega
          · intro b hb
            rcases List.mem_append.mp hb with hb | hb
            · exact ⟨i, le_refl i, hnamed.below b hb⟩
            · obtain ⟨j, hj, hctx⟩ := hlater b hb
              exact ⟨j, Nat.le_of_succ_le hj, hctx⟩
    rw [recurseInstances, except_bind_ok] at h
    obtain ⟨l₁, hl₁, h⟩ := h
    obtain ⟨bs, hbs, hnamed, hown⟩ := named_layoutAction hk hl₁
    obtain ⟨bs', hbs', hnamed', hbelow⟩ := hchildren (fun u hu => hu) (fun j u hu => by
      rw [Nat.zero_add, RoseTree.get?_concat, hk]
      exact hu) h
    refine ⟨bs ++ bs', ?_, ⟨?_, ?_, ?_⟩⟩
    · rw [hbs', hbs, List.append_assoc]
    · intro b hb
      exact (List.mem_append.mp hb).elim (hnamed.named b) (hnamed'.named b)
    · intro b hb
      exact (List.mem_append.mp hb).elim (hnamed.below b) (hnamed'.below b)
    · rw [List.map_append, List.nodup_append']
      refine ⟨hnamed.slots, hnamed'.slots, fun e he he' => ?_⟩
      obtain ⟨b, hb, rfl⟩ := List.mem_map.mp he
      obtain ⟨b', hb', heq⟩ := List.mem_map.mp he'
      obtain ⟨j, -, hctx⟩ := hbelow b' hb'
      have hsame : b'.context = k := (congrArg Prod.fst heq).trans (hown b hb)
      rw [hsame] at hctx
      have hlength := hctx.length_le
      simp at hlength

theorem named_of_fullProgramAnalysis {layout : Layout} (h : p.fullProgramAnalysis = .ok layout) :
    (∀ b ∈ layout.buffers, p.Named b) ∧ (layout.buffers.map slot).Nodup := by
  obtain ⟨bs, hbs, hnamed⟩ := named_recurseInstances (k := []) rfl h
  rw [hbs]
  exact ⟨hnamed.named, hnamed.slots⟩

end InstanceTree
end EgLang.Runtime
