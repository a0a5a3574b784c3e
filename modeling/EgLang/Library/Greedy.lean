import Mathlib.Data.List.Infix
import Mathlib.Tactic

/-!
# Greedy grammars

A grammar reads a value from the front of a text, or fails. It carries how its values are written: what
it has read is what it writes of the value. Repetition takes as many values as there are, and so never
fails: it ends in front of whatever the repeated grammar does not read.
-/

namespace EgLang.Library

set_option autoImplicit false

structure Grammar (σ α : Type) where
  parse : List σ → Option (α × List σ)
  write : α → List σ
  written : ∀ {text rest : List σ} {a : α}, parse text = some (a, rest) → text = write a ++ rest

namespace Grammar
variable {σ α β : Type}

/-! ## Grammars -/

/-- One symbol of a kind. -/
def char (p : σ → Bool) : Grammar σ σ where
  parse
    | [] => none
    | c :: rest => if p c then some (c, rest) else none
  write c := [c]
  written := by
    intro text rest a h
    cases text with
    | nil => cases h
    | cons c text =>
      by_cases hc : p c = true
      · simp only [hc, if_true, Option.some.injEq, Prod.mk.injEq] at h
        rw [h.1, h.2]
        rfl
      · simp [hc] at h

/-- A given word. -/
def lit [DecidableEq σ] (word : List σ) : Grammar σ Unit where
  parse text := if word <+: text then some ((), text.drop word.length) else none
  write _ := word
  written := by
    intro text rest a h
    by_cases hword : word <+: text
    · simp only [hword, if_true, Option.some.injEq, Prod.mk.injEq] at h
      rw [← h.2]
      exact (List.prefix_append_drop hword)
    · simp [hword] at h

/-- One after the other. -/
def seq (p : Grammar σ α) (q : Grammar σ β) : Grammar σ (α × β) where
  parse text :=
    match p.parse text with
    | none => none
    | some (a, rest) =>
      match q.parse rest with
      | none => none
      | some (b, rest') => some ((a, b), rest')
  write ab := p.write ab.1 ++ q.write ab.2
  written := by
    intro text rest ab h
    cases hp : p.parse text with
    | none => simp [hp] at h
    | some r =>
      cases hq : q.parse r.2 with
      | none => simp [hp, hq] at h
      | some r' =>
        simp only [hp, hq, Option.some.injEq, Prod.mk.injEq] at h
        rw [p.written hp, q.written hq, ← h.1, ← h.2, List.append_assoc]

/-- The values of a grammar as values of another type. -/
def as (p : Grammar σ α) (f : α → β) (write : β → List σ) (h : ∀ a, write (f a) = p.write a) :
    Grammar σ β where
  parse text := (p.parse text).map fun r => (f r.1, r.2)
  write := write
  written := by
    intro text rest b hb
    obtain ⟨r, hr, heq⟩ := Option.map_eq_some_iff.mp hb
    rw [p.written hr, ← (Prod.mk.inj heq).1, ← (Prod.mk.inj heq).2, h]

/-- What the first grammar reads where the second one fails. -/
def difference (p : Grammar σ α) (q : Grammar σ β) : Grammar σ α where
  parse text := if (q.parse text).isSome then none else p.parse text
  write := p.write
  written := by
    intro text rest a h
    by_cases hq : (q.parse text).isSome
    · simp [hq] at h
    · exact p.written (by simpa [hq] using h)

/-- At most `n` values. -/
def upTo (p : Grammar σ α) : ℕ → List σ → List α × List σ
  | 0, text => ([], text)
  | n + 1, text =>
    match p.parse text with
    | none => ([], text)
    | some (a, rest) => (a :: (p.upTo n rest).1, (p.upTo n rest).2)

theorem upTo_written (p : Grammar σ α) (n : ℕ) (text : List σ) :
    text = (p.upTo n text).1.flatMap p.write ++ (p.upTo n text).2 := by
  induction n generalizing text with
  | zero => rfl
  | succ n ih =>
    rw [upTo]
    cases hp : p.parse text with
    | none => rfl
    | some r =>
      rw [List.flatMap_cons, List.append_assoc, ← ih r.2]
      exact p.written hp

/-- As many values as there are. A text has room for no more values than symbols, as long as every
value takes one. -/
def kleene (p : Grammar σ α) : Grammar σ (List α) where
  parse text := some (p.upTo text.length text)
  write as := as.flatMap p.write
  written := by
    intro text rest as h
    have hupTo := p.upTo_written text.length text
    rw [Option.some.inj h] at hupTo
    exact hupTo

/-- At least one value. -/
def plus (p : Grammar σ α) : Grammar σ (List α) :=
  (p.seq p.kleene).as (fun r => r.1 :: r.2) (fun as => as.flatMap p.write) fun _ => List.flatMap_cons

/-! ## Repetition -/

/-- What is read takes a symbol. -/
def Consumes (p : Grammar σ α) : Prop :=
  ∀ text rest a, p.parse text = some (a, rest) → rest.length < text.length

theorem consumes_of_write_ne_nil {p : Grammar σ α}
    (h : ∀ text rest a, p.parse text = some (a, rest) → p.write a ≠ []) : p.Consumes := by
  intro text rest a hp
  have hpos : 0 < (p.write a).length := List.length_pos_of_ne_nil (h text rest a hp)
  rw [p.written hp, List.length_append]
  omega

variable {p : Grammar σ α} {text rest : List σ} {a : α}

/-- Room for more values than the text has symbols changes nothing. -/
theorem Consumes.upTo_eq (hp : p.Consumes) {n m : ℕ} (hn : text.length ≤ n) (hm : text.length ≤ m) :
    p.upTo n text = p.upTo m text := by
  induction n generalizing m text with
  | zero =>
    cases m with
    | zero => rfl
    | succ m =>
      rw [upTo, upTo]
      cases hparse : p.parse text with
      | none => rfl
      | some r => exact absurd (hp text r.2 r.1 hparse) (by omega)
  | succ n ih =>
    cases m with
    | zero =>
      rw [upTo, upTo]
      cases hparse : p.parse text with
      | none => rfl
      | some r => exact absurd (hp text r.2 r.1 hparse) (by omega)
    | succ m =>
      rw [upTo, upTo]
      cases hparse : p.parse text with
      | none => rfl
      | some r =>
        have hlt : r.2.length < text.length := hp text r.2 r.1 hparse
        have hrest : p.upTo n r.2 = p.upTo m r.2 := ih (by omega) (by omega)
        simp only [hrest]

theorem kleene_of_none (h : p.parse text = none) : p.kleene.parse text = some ([], text) := by
  show some (p.upTo text.length text) = some ([], text)
  cases text.length with
  | zero => rfl
  | succ n => rw [upTo, h]

theorem Consumes.kleene_of_some (hp : p.Consumes) (h : p.parse text = some (a, rest)) {as : List α}
    {rest' : List σ} (hrest : p.kleene.parse rest = some (as, rest')) :
    p.kleene.parse text = some (a :: as, rest') := by
  have hlt : rest.length < text.length := hp text rest a h
  show some (p.upTo text.length text) = some (a :: as, rest')
  cases hlen : text.length with
  | zero => omega
  | succ n =>
    have hupTo : p.upTo n rest = (as, rest') := by
      rw [hp.upTo_eq (by omega : rest.length ≤ n) le_rfl]
      exact Option.some.inj hrest
    rw [upTo, h]
    simp only [hupTo]

theorem kleene_parse (p : Grammar σ α) (text : List σ) :
    ∃ as rest, p.kleene.parse text = some (as, rest) :=
  ⟨_, _, rfl⟩

/-- **Repetition, by its values.** What holds of an end where the grammar fails, and of a text if it
holds of what a value leaves, holds of every text. -/
theorem Consumes.kleene_rule (hp : p.Consumes) {C : List σ → List α → List σ → Prop}
    (hend : ∀ text, p.parse text = none → C text [] text)
    (hstep : ∀ text rest a as rest', p.parse text = some (a, rest) → C rest as rest' →
      C text (a :: as) rest')
    {as : List α} (h : p.kleene.parse text = some (as, rest)) : C text as rest := by
  induction hn : text.length using Nat.strong_induction_on generalizing text as with
  | _ n ih =>
    cases hparse : p.parse text with
    | none =>
      rw [kleene_of_none hparse] at h
      obtain ⟨rfl, rfl⟩ := Prod.mk.inj (Option.some.inj h)
      exact hend text hparse
    | some r =>
      obtain ⟨as', rest', hrest⟩ := p.kleene_parse r.2
      rw [hp.kleene_of_some hparse hrest] at h
      obtain ⟨rfl, rfl⟩ := Prod.mk.inj (Option.some.inj h)
      have hlt : r.2.length < text.length := hp text r.2 r.1 hparse
      exact hstep text r.2 r.1 as' rest' hparse (ih r.2.length (by omega) hrest rfl)

/-- Repetition ends where the repeated grammar fails. -/
theorem Consumes.kleene_stops (hp : p.Consumes) {as : List α}
    (h : p.kleene.parse text = some (as, rest)) : p.parse rest = none := by
  refine hp.kleene_rule (C := fun _ _ rest => p.parse rest = none) (fun _ h => h) ?_ h
  intro _ _ _ _ _ _ ih
  exact ih

/-! ## What is read -/

/-- The values that are read are of a kind. -/
def Reads (p : Grammar σ α) (P : α → Prop) : Prop :=
  ∀ text rest a, p.parse text = some (a, rest) → P a

theorem Consumes.reads_kleene (hp : p.Consumes) {P : α → Prop} (h : p.Reads P) :
    p.kleene.Reads fun as => ∀ a ∈ as, P a := by
  intro text rest as hparse
  refine hp.kleene_rule (C := fun _ as _ => ∀ a ∈ as, P a) ?_ ?_ hparse
  · intro _ _ a ha
    cases ha
  · intro text rest a as rest' ha ih
    exact List.forall_mem_cons.mpr ⟨h text rest a ha, ih⟩

theorem char_parse_eq_some {q : σ → Bool} {c : σ} :
    (char q).parse text = some (c, rest) ↔ text = c :: rest ∧ q c = true := by
  cases text with
  | nil => simp [char]
  | cons d text =>
    show (if q d then some (d, text) else none) = some (c, rest) ↔ _
    by_cases hd : q d = true
    · simp only [hd, if_true, Option.some.injEq, Prod.mk.injEq, List.cons.injEq]
      constructor
      · intro h
        rw [← h.1]
        exact ⟨⟨rfl, h.2⟩, hd⟩
      · intro h
        exact h.1
    · simp only [hd, Bool.false_eq_true, if_false, reduceCtorEq, List.cons.injEq, false_iff]
      intro h
      rw [h.1.1] at hd
      exact hd h.2

theorem seq_parse_eq_some {q : Grammar σ β} {ab : α × β} :
    (p.seq q).parse text = some (ab, rest) ↔
      ∃ mid, p.parse text = some (ab.1, mid) ∧ q.parse mid = some (ab.2, rest) := by
  constructor
  · intro h
    cases hp : p.parse text with
    | none => simp [seq, hp] at h
    | some r =>
      cases hq : q.parse r.2 with
      | none => simp [seq, hp, hq] at h
      | some r' =>
        simp only [seq, hp, hq, Option.some.injEq, Prod.mk.injEq] at h
        refine ⟨r.2, ?_, ?_⟩
        · rw [← h.1]
        · rw [hq, ← h.1, ← h.2]
  · intro h
    obtain ⟨mid, hp, hq⟩ := h
    simp [seq, hp, hq]

theorem as_parse_eq_some {f : α → β} {write : β → List σ} {hw : ∀ a, write (f a) = p.write a} {b : β} :
    (p.as f write hw).parse text = some (b, rest) ↔ ∃ a, p.parse text = some (a, rest) ∧ f a = b := by
  constructor
  · intro h
    obtain ⟨r, hr, heq⟩ := Option.map_eq_some_iff.mp h
    obtain ⟨hf, hrest⟩ := Prod.mk.inj heq
    exact ⟨r.1, by rw [hr, ← hrest], hf⟩
  · intro h
    obtain ⟨a, ha, hf⟩ := h
    exact Option.map_eq_some_iff.mpr ⟨(a, rest), ha, by rw [hf]⟩

theorem plus_parse_eq_some {as : List α} :
    p.plus.parse text = some (as, rest) ↔
      ∃ a mid as', p.parse text = some (a, mid) ∧ p.kleene.parse mid = some (as', rest) ∧
        a :: as' = as := by
  refine Iff.trans as_parse_eq_some ?_
  constructor
  · intro h
    obtain ⟨r, hr, heq⟩ := h
    obtain ⟨mid, ha, has⟩ := seq_parse_eq_some.mp hr
    exact ⟨r.1, mid, r.2, ha, has, heq⟩
  · intro h
    obtain ⟨a, mid, as', ha, has, heq⟩ := h
    exact ⟨(a, as'), seq_parse_eq_some.mpr ⟨mid, ha, has⟩, heq⟩

/-! ## Text up to a word -/

section Words
variable [DecidableEq σ]

theorem lit_parse_eq_some {word : List σ} :
    (lit word).parse text = some ((), rest) ↔ text = word ++ rest := by
  constructor
  · exact fun h => (lit word).written h
  · intro h
    rw [h]
    show (if word <+: word ++ rest then _ else _) = _
    rw [if_pos (List.prefix_append word rest), List.drop_left]

/-- A symbol of a kind, in front of which the word does not stand. -/
def charBut (q : σ → Bool) (word : List σ) : Grammar σ σ := (char q).difference (lit word)

theorem charBut_parse_eq_some {q : σ → Bool} {word : List σ} {c : σ} :
    (charBut q word).parse text = some (c, rest) ↔
      text = c :: rest ∧ q c = true ∧ ¬ word <+: text := by
  show (if ((lit word).parse text).isSome then none else (char q).parse text) = _ ↔ _
  have hlit : ((lit word).parse text).isSome = true ↔ word <+: text := by
    show (if word <+: text then some ((), text.drop word.length) else none).isSome = true ↔ _
    by_cases h : word <+: text
    · simp [h]
    · simp [h]
  by_cases hword : word <+: text
  · rw [if_pos (hlit.mpr hword)]
    simp [hword]
  · rw [if_neg (fun h => hword (hlit.mp h)), char_parse_eq_some]
    simp [hword]

theorem consumes_charBut (q : σ → Bool) (word : List σ) : (charBut q word).Consumes := by
  apply consumes_of_write_ne_nil
  intro _ _ a _
  exact List.cons_ne_nil a []

/-- What is read up to a word of two symbols does not hold it, and ends at it, at the end of the text
or at a symbol of another kind. -/
theorem charBut_kleene {q : σ → Bool} {x y : σ} {as : List σ}
    (h : (charBut q [x, y]).kleene.parse text = some (as, rest)) :
    text = as ++ rest ∧ (∀ c ∈ as, q c = true) ∧ ¬ [x, y] <:+: as := by
  refine (consumes_charBut q [x, y]).kleene_rule
    (C := fun text as rest => text = as ++ rest ∧ (∀ c ∈ as, q c = true) ∧ ¬ [x, y] <:+: as) ?_ ?_ h
  · intro text _
    exact ⟨rfl, by simp, by simp⟩
  · intro text rest c as rest' hc ih
    obtain ⟨htext, hq, hword⟩ := charBut_parse_eq_some.mp hc
    obtain ⟨hrest, hall, hnot⟩ := ih
    refine ⟨by rw [htext, hrest]; rfl, List.forall_mem_cons.mpr ⟨hq, hall⟩, ?_⟩
    rw [List.infix_cons_iff]
    intro hinfix
    cases hinfix with
    | inl hprefix =>
      apply hword
      rw [htext, hrest]
      exact hprefix.trans (List.prefix_append (c :: as) rest')
    | inr hinfix => exact hnot hinfix

/-- A text without the word, in front of the word or of the end, is read to its end. -/
theorem charBut_kleene_append {q : σ → Bool} {x y : σ} (hxy : x ≠ y) {as : List σ}
    (hq : ∀ c ∈ as, q c = true) (hword : ¬ [x, y] <:+: as) (hrest : rest = [] ∨ [x, y] <+: rest) :
    (charBut q [x, y]).kleene.parse (as ++ rest) = some (as, rest) := by
  induction as with
  | nil =>
    apply kleene_of_none
    rw [List.nil_append, Option.eq_none_iff_forall_ne_some]
    intro r hr
    obtain ⟨htext, -, hnot⟩ := charBut_parse_eq_some.mp hr
    cases hrest with
    | inl hnil =>
      rw [hnil] at htext
      cases htext
    | inr hprefix => exact hnot hprefix
  | cons c as ih =>
    rw [List.forall_mem_cons] at hq
    rw [List.infix_cons_iff, not_or] at hword
    have hhead : (charBut q [x, y]).parse (c :: (as ++ rest)) = some (c, as ++ rest) := by
      refine charBut_parse_eq_some.mpr ⟨rfl, hq.1, fun hfront => ?_⟩
      obtain ⟨hc, hfront⟩ := List.cons_prefix_cons.mp hfront
      cases as with
      | nil =>
        cases hrest with
        | inl hnil =>
          rw [hnil] at hfront
          simp at hfront
        | inr hword' =>
          obtain ⟨z, hz⟩ := hword'
          rw [← hz] at hfront
          exact hxy (List.cons_prefix_cons.mp hfront).1.symm
      | cons d as =>
        obtain ⟨hd, -⟩ := List.cons_prefix_cons.mp hfront
        apply hword.1
        rw [hc, hd]
        exact ⟨as, rfl⟩
    exact (consumes_charBut q [x, y]).kleene_of_some hhead (ih hq.2 hword.2)

end Words

end Grammar

end EgLang.Library
