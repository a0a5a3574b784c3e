import EgLang.Parsing.Captures

/-!
# The parts of context bodies

Between its declarations the body of a context has runs of other tokens. A run that has a token besides
comments is the code of the context: it goes to the callback, and the context gets a definition file for
it. The flag `bActionDefinition` decides about both; the loop over a run sets it, but for the first token.
-/

namespace EgLang.Parsing

open EgLang.Library

set_option autoImplicit false

/-! ## Runs -/

/-- A run of tokens between declarations, its text, and the context before and after the round of
`parse_context_body` that scans it. -/
structure Run where
  first : Token
  others : List Token
  text : String
  before : Context
  after : Context

namespace Run

/-- There is a token in it that is no comment. -/
def HasCode (r : Run) : Prop := ∃ t ∈ r.first :: r.others, t.kind.definesAction = true

/-- There is such a token behind its first one. -/
def HasCodeBehind (r : Run) : Prop := ∃ t ∈ r.others, t.kind.definesAction = true

/-- The callback of the context receives the text. -/
def Delivered (r : Run) : Prop := r.after.heading.bodies = r.before.heading.bodies ++ [r.text]

instance (r : Run) : Decidable r.HasCode :=
  inferInstanceAs (Decidable (∃ t ∈ r.first :: r.others, t.kind.definesAction = true))

instance (r : Run) : Decidable r.HasCodeBehind :=
  inferInstanceAs (Decidable (∃ t ∈ r.others, t.kind.definesAction = true))

instance (r : Run) : Decidable r.Delivered :=
  inferInstanceAs (Decidable (r.after.heading.bodies = r.before.heading.bodies ++ [r.text]))

theorem HasCodeBehind.hasCode {r : Run} (h : r.HasCodeBehind) : r.HasCode := by
  obtain ⟨t, ht, hcode⟩ := h
  exact ⟨t, List.mem_cons_of_mem r.first ht, hcode⟩

end Run

/-- The run that begins here, if no declaration does and the context does not end: all tokens up to the next
declaration, to the brace that closes the context or to the end of the file or module. -/
def runAt (p : Parser) : Option (Token × List Token) :=
  match p.tokens with
  | [] => none
  | t :: rest =>
    if atDeclaration p.back (t :: rest) p.braceCount then none
    else some (t, (skim (atDeclaration p.back) rest (countBrace (some t.kind) p.braceCount)).1)

/-- The text of a run. -/
def runText (src : Source) (run : Token × List Token) : String :=
  (textOf src (run.1 :: run.2)).getD ""

section Bodies
variable (src : Source) (egSourceFile : String) (loop : ℕ → Scan)

/-- The runs of a body, in the order in which the rounds of `parse_context_body` come to them. -/
def bodyRuns : ℕ → Context → Bool → Parse (List Run)
  | 0, _, _ => throw .outOfFuel
  | fuel + 1, c, bActionDefinition => do
    let p ← get
    if p.isEofOrEom then pure []
    else do
      let nested := contextBody egSourceFile (contextBodyLoop src egSourceFile loop fuel)
      let round ← parse_element src (loop fuel) nested c bActionDefinition
      match round with
      | .again c' b => do
        let runs ← bodyRuns fuel c' b
        pure ((runAt p).elim runs fun run => ⟨run.1, run.2, runText src run, c, c'⟩ :: runs)
      | .leave => pure []

end Bodies

/-! ## Rounds -/

section Rounds
variable {src : Source} {loop : Scan} {nested : Context → Parse Context} {c c' : Context} {b b' : Bool}
  {p q : Parser}

theorem heading_withContext {name : String} {parse : Context → Parse Context}
    (h : withContext name parse c p = .ok (c', q)) : c'.heading = c.heading := by
  unfold withContext at h
  cases hfind : findContext name c.elements with
  | none =>
    rw [hfind] at h
    obtain ⟨k, r, -, h⟩ := parse_bind_ok.mp h
    rw [← (Prod.mk.inj (Except.ok.inj h)).1]
    rfl
  | some found =>
    rw [hfind] at h
    obtain ⟨k, r, -, h⟩ := parse_bind_ok.mp h
    rw [← (Prod.mk.inj (Except.ok.inj h)).1]

/-- The tests of a round, before it takes the token for the first of a run. -/
theorem atDeclaration_iff : atDeclaration p.back p.tokens p.braceCount = true ↔
    contextTypeOf p.Tok ≠ .eUnknown ∨
      ((p.Tok = some .kw_const ∧ p.NextToken = some .kw_dim) ∨ p.Tok = some .kw_dim) ∨
        p.Tok = some .kw_include ∨ p.Tok = some .kw_using ∨ p.Tok = some .kw_export ∨
          (p.Tok = some .kw_public ∨ p.Tok = some .kw_private) ∨
            (p.Tok = some .r_brace ∧ p.braceCount = p.back) := by
  rw [Parser.Tok, Parser.NextToken]
  cases p.tokens with
  | nil => simp [atDeclaration, at_, contextTypeOf]
  | cons t rest =>
    cases hkind : t.kind <;> cases rest <;> simp [atDeclaration, at_, contextTypeOf, hkind]

theorem runAt_eq_none : runAt p = none ↔
    p.tokens = [] ∨ atDeclaration p.back p.tokens p.braceCount = true := by
  rw [runAt]
  cases p.tokens with
  | nil => simp
  | cons t rest => simp

/-- A round at a declaration. -/
theorem round_at_declaration (h : parse_element src loop nested c b p = .ok (.again c' b', q))
    (hat : atDeclaration p.back p.tokens p.braceCount = true) : c'.heading = c.heading ∧ b' = b := by
  rw [atDeclaration_iff] at hat
  change (if contextTypeOf p.Tok ≠ .eUnknown then _ else _ : Parse Round) p = _ at h
  have again {r : Parser} {k : Context} (h : (pure (.again k b) : Parse Round) r = .ok (.again c' b', q)) :
      c' = k ∧ b' = b := by
    obtain ⟨hround, -⟩ := Prod.mk.inj (Except.ok.inj h)
    obtain ⟨rfl, rfl⟩ := Round.again.inj hround
    exact ⟨rfl, rfl⟩
  split at h
  · obtain ⟨_, p1, -, h⟩ := parse_bind_ok.mp h
    obtain ⟨name, p2, -, h⟩ := parse_bind_ok.mp h
    obtain ⟨k, p3, hk, h⟩ := parse_bind_ok.mp h
    obtain ⟨rfl, hb⟩ := again h
    exact ⟨heading_withContext hk, hb⟩
  split at h
  · have hdim {r : Parser} {isConst : Bool} (h : (parse_dimension src loop isConst >>= fun d =>
        pure (.again (c.push (.dimension d)) b) : Parse Round) r = .ok (.again c' b', q)) :
        c'.heading = c.heading ∧ b' = b := by
      obtain ⟨d, p1, -, h⟩ := parse_bind_ok.mp h
      obtain ⟨rfl, hb⟩ := again h
      exact ⟨rfl, hb⟩
    by_cases hconst : p.Tok = some .kw_const
    · simp only [hconst, decide_true, if_true] at h
      obtain ⟨_, p1, -, h⟩ := parse_bind_ok.mp h
      obtain ⟨_, p2, -, h⟩ := parse_bind_ok.mp h
      exact hdim h
    · simp only [hconst, decide_false, if_false] at h
      obtain ⟨_, p1, -, h⟩ := parse_bind_ok.mp h
      exact hdim h
  split at h
  · obtain ⟨_, p1, -, h⟩ := parse_bind_ok.mp h
    obtain ⟨i, p2, -, h⟩ := parse_bind_ok.mp h
    obtain ⟨rfl, hb⟩ := again h
    exact ⟨rfl, hb⟩
  split at h
  · obtain ⟨_, p1, -, h⟩ := parse_bind_ok.mp h
    obtain ⟨u, p2, -, h⟩ := parse_bind_ok.mp h
    obtain ⟨rfl, hb⟩ := again h
    exact ⟨rfl, hb⟩
  split at h
  · obtain ⟨_, p1, -, h⟩ := parse_bind_ok.mp h
    obtain ⟨e, p2, -, h⟩ := parse_bind_ok.mp h
    obtain ⟨rfl, hb⟩ := again h
    exact ⟨rfl, hb⟩
  split at h
  · obtain ⟨v, p1, -, h⟩ := parse_bind_ok.mp h
    obtain ⟨rfl, hb⟩ := again h
    exact ⟨rfl, hb⟩
  split at h
  · cases h
  · tauto

/-- The heading of a context that a part of its body was handed on for. -/
def handOn (c : Context) (strBodyPart : String) (b : Bool) : Context :=
  { c with heading := { c.heading with bodies :=
      if strBodyPart ≠ "" ∧ b = true then c.heading.bodies ++ [strBodyPart] else c.heading.bodies } }

/-- A round at a run takes all of it, and hands its text on if the flag is set by then. No other run begins
behind it. -/
theorem round_at_run {run : Token × List Token} {round : Round}
    (h : parse_element src loop nested c b p = .ok (round, q)) (hat : runAt p = some run) :
    textOf src (run.1 :: run.2) = some (runText src run) ∧
      round = .again (handOn c (runText src run) (b || run.2.any fun t => t.kind.definesAction))
        (b || run.2.any fun t => t.kind.definesAction) ∧
      p.tokens = run.1 :: (run.2 ++ q.tokens) ∧
      (q.isEofOrEom = true ∨ atDeclaration q.back q.tokens q.braceCount = true) := by
  have hnot : ¬ atDeclaration p.back p.tokens p.braceCount = true := by
    intro hdecl
    rw [runAt_eq_none.mpr (Or.inr hdecl)] at hat
    cases hat
  rw [atDeclaration_iff] at hnot
  push Not at hnot
  obtain ⟨hcontext, hdim, hinclude, husing, hexport, hvisibility, hbrace⟩ := hnot
  have hrun : parse_element src loop nested c b p =
      (passage src (atDeclaration p.back) >>= fun range =>
        sourceText src range.1 range.2.1 "VERIFY_RTE" >>= fun strBodyPart =>
          pure (.again (handOn c strBodyPart (b || range.2.2.any fun t => t.kind.definesAction))
            (b || range.2.2.any fun t => t.kind.definesAction)) : Parse Round) p := by
    change (if contextTypeOf p.Tok ≠ .eUnknown then _ else _ : Parse Round) p = _
    rw [if_neg (fun hne => hne hcontext), if_neg (fun hd => hd.elim (fun hc => hdim.1 hc.1 hc.2) hdim.2),
      if_neg hinclude, if_neg husing, if_neg hexport,
      if_neg (fun hv => hv.elim hvisibility.1 hvisibility.2), if_neg (fun hb => hbrace hb.1 hb.2)]
    rfl
  rw [runAt] at hat
  cases htokens : p.tokens with
  | nil =>
    rw [htokens] at hat
    cases hat
  | cons t rest =>
    rw [htokens] at hat
    dsimp only at hat
    split at hat
    · cases hat
    · obtain rfl := Option.some.inj hat
      obtain ⟨taken, left, n, hskim⟩ : ∃ taken left n,
          skim (atDeclaration p.back) p.tokens.tail (countBrace p.Tok p.braceCount) = (taken, left, n) :=
        ⟨_, _, _, rfl⟩
      have htaken : (skim (atDeclaration p.back) rest (countBrace (some t.kind) p.braceCount)).1 = taken := by
        rw [Parser.Tok, htokens] at hskim
        exact congrArg Prod.fst hskim
      rw [hrun, bind_of_ok (passage_run hskim)] at h
      obtain ⟨str, r, hstr, h⟩ := parse_bind_ok.mp h
      obtain ⟨htext, hr⟩ := sourceText_ok.mp hstr
      have hstrText : textOf src (t :: taken) = some str := by
        rw [← htext, Parser.location, Parser.endLoc, htokens]
        rfl
      rw [htaken, runText, hstrText, Option.getD_some]
      obtain ⟨hround, hq⟩ := Prod.mk.inj (Except.ok.inj h)
      refine ⟨rfl, hround.symm, ?_, ?_⟩
      · rw [htokens, List.tail_cons] at hskim
        rw [← hq, hr, skim_eq_append hskim]
      · rw [← hq, hr]
        cases skim_end hskim with
        | inl hnil =>
          left
          rw [hnil]
          rfl
        | inr hend =>
          obtain ⟨x, l, rfl, hend⟩ := hend
          exact hend

end Rounds

/-! ## The rounds of a body -/

/-- The runs are delivered by the flag as it is behind them. -/
def Marked : Bool → List Run → Prop
  | _, [] => True
  | b, r :: rs => (r.Delivered ↔ r.text ≠ "" ∧ (b = true ∨ r.HasCodeBehind)) ∧
      Marked (b || decide r.HasCodeBehind) rs

/-- The flag behind some runs. -/
def flagAfter (b : Bool) (rs : List Run) : Bool := b || rs.any fun r => decide r.HasCodeBehind

/-- The texts that the callback receives for some runs. -/
def handedOn (rs : List Run) : List String := (rs.filter fun r => decide r.Delivered).map Run.text

section Loop
variable {src : Source} {egSourceFile : String} {loop : ℕ → Scan} {fuel : ℕ} {c : Context} {b : Bool}
  {p q : Parser} {rs : List Run}

theorem hasCodeBehind_eq (run : Token × List Token) (text : String) (before after : Context) :
    (run.2.any fun t => t.kind.definesAction) = decide (Run.HasCodeBehind ⟨run.1, run.2, text, before, after⟩) := by
  rw [Bool.eq_iff_iff, List.any_eq_true, decide_eq_true_eq]
  rfl

theorem delivered_handOn {run : Token × List Token} {text : String} {flag : Bool} :
    Run.Delivered ⟨run.1, run.2, text, c, handOn c text flag⟩ ↔ text ≠ "" ∧ flag = true := by
  rw [Run.Delivered, handOn]
  split
  · rename_i hgiven
    exact iff_of_true rfl hgiven
  · rename_i hnot
    refine iff_of_false (fun heq => ?_) hnot
    have hlength := congrArg List.length heq
    simp at hlength

theorem bodies_handOn {run : Token × List Token} {text : String} {flag : Bool} :
    (handOn c text flag).heading.bodies ++ handedOn rs =
      c.heading.bodies ++ handedOn (⟨run.1, run.2, text, c, handOn c text flag⟩ :: rs) := by
  rw [handedOn, handedOn, List.filter_cons]
  by_cases hgiven : text ≠ "" ∧ flag = true
  · rw [if_pos (by rw [decide_eq_true_eq]; exact delivered_handOn.mpr hgiven), handOn]
    dsimp only
    rw [if_pos hgiven, List.map_cons, List.append_assoc]
    rfl
  · rw [if_neg (by rw [decide_eq_true_eq]; exact fun h => hgiven (delivered_handOn.mp h)), handOn]
    dsimp only
    rw [if_neg hgiven]

theorem marked_handOn {run : Token × List Token} {text : String}
    (h : Marked (b || run.2.any fun t => t.kind.definesAction) rs) :
    Marked b (⟨run.1, run.2, text, c, handOn c text (b || run.2.any fun t => t.kind.definesAction)⟩ :: rs) := by
  constructor
  · rw [delivered_handOn, Bool.or_eq_true, List.any_eq_true]
    exact Iff.rfl
  · rw [← hasCodeBehind_eq]
    exact h

/-- What the loop of a body comes to, by its runs. -/
theorem loop_of_runs (h : bodyRuns src egSourceFile loop fuel c b p = .ok (rs, q)) :
    ∃ c', contextBodyLoop src egSourceFile loop fuel c b p = .ok ((c', flagAfter b rs), q) ∧
      c'.heading = { c.heading with bodies := c.heading.bodies ++ handedOn rs } ∧ Marked b rs := by
  induction fuel generalizing c b p rs with
  | zero => cases h
  | succ fuel ih =>
    change (if p.isEofOrEom then _ else _ : Parse (List Run)) p = _ at h
    have hloop : contextBodyLoop src egSourceFile loop (fuel + 1) c b p =
        (if p.isEofOrEom then pure (c, b) else
          parse_element src (loop fuel) (contextBody egSourceFile (contextBodyLoop src egSourceFile loop fuel))
            c b >>= fun round =>
          match round with
          | .again c' b => contextBodyLoop src egSourceFile loop fuel c' b
          | .leave => pure (c, b)) p := rfl
    rw [hloop]
    split at h
    · rename_i hend
      obtain ⟨rfl, rfl⟩ := Prod.mk.inj (Except.ok.inj h)
      rw [if_pos hend]
      exact ⟨c, by simp [flagAfter]; rfl, by simp [handedOn], trivial⟩
    · rename_i hend
      rw [if_neg hend]
      obtain ⟨round, r, hround, h⟩ := parse_bind_ok.mp h
      rw [bind_of_ok hround]
      cases round with
      | leave =>
        obtain ⟨rfl, rfl⟩ := Prod.mk.inj (Except.ok.inj h)
        exact ⟨c, by simp [flagAfter]; rfl, by simp [handedOn], trivial⟩
      | again c1 b1 =>
        obtain ⟨rs1, r1, hrs1, h⟩ := parse_bind_ok.mp h
        obtain ⟨hrs, rfl⟩ := Prod.mk.inj (Except.ok.inj h)
        obtain ⟨c', hc', hheading, hmarked⟩ := ih hrs1
        refine ⟨c', ?_⟩
        cases hat : runAt p with
        | none =>
          have hdecl : atDeclaration p.back p.tokens p.braceCount = true := by
            cases runAt_eq_none.mp hat with
            | inl hnil =>
              refine absurd ?_ hend
              rw [Parser.isEofOrEom, Parser.Tok, hnil]
              rfl
            | inr hdecl => exact hdecl
          obtain ⟨hsame, rfl⟩ := round_at_declaration hround hdecl
          rw [hat] at hrs
          obtain rfl : rs1 = rs := hrs
          rw [hsame] at hheading
          exact ⟨hc', hheading, hmarked⟩
        | some run =>
          obtain ⟨-, hagain, -, -⟩ := round_at_run hround hat
          obtain ⟨rfl, rfl⟩ := Round.again.inj hagain
          rw [hat] at hrs
          obtain rfl := hrs
          refine ⟨?_, ?_, marked_handOn hmarked⟩
          · have hbehind := hasCodeBehind_eq run (runText src run) c
              (handOn c (runText src run) (b || run.2.any fun t => t.kind.definesAction))
            rw [flagAfter] at hc'
            change contextBodyLoop src egSourceFile loop fuel _ _ r = _
            rw [hc', flagAfter, Option.elim_some, List.any_cons, ← hbehind, Bool.or_assoc]
          · rw [hheading]
            change ({ c.heading with bodies := (handOn c (runText src run) _).heading.bodies ++ handedOn rs1 } :
              Heading) = _
            rw [bodies_handOn]
            rfl

end Loop

/-! ## Whole bodies -/

/-- The body of a context, from its state on: the runs between its declarations, up to a state with as many open
braces as at its start. -/
structure Body (src : Source) (egSourceFile : String) (loop : ℕ → Scan) (fuel : ℕ) (c : Context) (p : Parser)
    (rs : List Run) : Prop where
  ends : ∃ q, bodyRuns src egSourceFile loop fuel c false
    { p with braceStack := p.braceCount :: p.braceStack } = .ok (rs, q) ∧ q.braceCount = q.back

/-- The exception of a second body. -/
def multiplyDefined (egSourceFile : String) (c : Context) (file : String) : String :=
  if file = egSourceFile then
    "Action: " ++ c.heading.identifier ++ " multiply defined in: " ++ egSourceFile
  else
    "Action: " ++ c.heading.identifier ++ " multiply defined in: " ++ file ++ " and " ++ egSourceFile

/-- Every run with code is delivered, in the order of the runs, and just where there is one the context gets a
definition file, or the body is refused if it has one. -/
def DeliversBody (egSourceFile : String) (c : Context) (rs : List Run)
    (result : Except Fault (Context × Parser)) : Prop :=
  (∀ r ∈ rs, r.HasCode → r.Delivered) ∧
    ((¬ ∃ r ∈ rs, r.HasCode) → ∃ c' q, result = .ok (c', q) ∧
      c'.heading.bodies = c.heading.bodies ++ handedOn rs ∧
        c'.heading.definitionFile = c.heading.definitionFile) ∧
    ((∃ r ∈ rs, r.HasCode) →
      match c.heading.definitionFile with
      | none => ∃ c' q, result = .ok (c', q) ∧ c'.heading.bodies = c.heading.bodies ++ handedOn rs ∧
          c'.heading.definitionFile = some egSourceFile
      | some file => result = .error (.error (multiplyDefined egSourceFile c file)))

/-- The first run with code has code behind its first token. No run with code has an empty text. -/
def FirstCoded (rs : List Run) : Prop :=
  (∀ r ∈ rs, r.HasCode → r.text ≠ "") ∧
    ∀ r, (rs.find? fun r => decide r.HasCode) = some r → r.HasCodeBehind

instance (rs : List Run) : Decidable (FirstCoded rs) :=
  inferInstanceAs (Decidable ((∀ r ∈ rs, r.HasCode → r.text ≠ "") ∧
    ∀ r ∈ (rs.find? fun r => decide r.HasCode : Option Run), r.HasCodeBehind))

section Whole
variable {src : Source} {egSourceFile : String} {loop : ℕ → Scan} {fuel : ℕ} {c : Context} {b : Bool}
  {p q : Parser} {rs : List Run}

theorem delivered_iff_of_marked (h : Marked b rs) :
    (∀ r ∈ rs, r.HasCode → r.Delivered) ↔
      (∀ r ∈ rs, r.HasCode → r.text ≠ "") ∧
        (b = true ∨ ∀ r, (rs.find? fun r => decide r.HasCode) = some r → r.HasCodeBehind) := by
  induction rs generalizing b with
  | nil => simp
  | cons r rs ih =>
    obtain ⟨hr, hrs⟩ := h
    rw [List.forall_mem_cons, List.forall_mem_cons, ih hrs, hr, Bool.or_eq_true, decide_eq_true_eq]
    by_cases hcode : r.HasCode
    · rw [List.find?_cons_of_pos (by rw [decide_eq_true_eq]; exact hcode)]
      constructor
      · intro h
        obtain ⟨hfirst, htexts, -⟩ := h
        refine ⟨⟨fun _ => (hfirst hcode).1, htexts⟩, ?_⟩
        exact (hfirst hcode).2.imp_right fun hbehind r' heq => by rwa [← Option.some.inj heq]
      · intro h
        obtain ⟨⟨hfirst, htexts⟩, hset⟩ := h
        have hset' : b = true ∨ r.HasCodeBehind := hset.imp_right fun hall => hall r rfl
        exact ⟨fun _ => ⟨hfirst hcode, hset'⟩, htexts, Or.inl hset'⟩
    · have hbehind : ¬ r.HasCodeBehind := fun h => hcode h.hasCode
      rw [List.find?_cons_of_neg (by rw [decide_eq_true_eq]; exact hcode)]
      simp [hcode, hbehind]

theorem delivered_iff (h : Marked false rs) : (∀ r ∈ rs, r.HasCode → r.Delivered) ↔ FirstCoded rs := by
  rw [delivered_iff_of_marked h]
  simp [FirstCoded]

/-- The flag is set by the runs with code. -/
theorem FirstCoded.flagAfter_eq (h : FirstCoded rs) : flagAfter false rs = true ↔ ∃ r ∈ rs, r.HasCode := by
  rw [flagAfter, Bool.false_or, List.any_eq_true]
  constructor
  · intro hany
    obtain ⟨r, hr, hbehind⟩ := hany
    exact ⟨r, hr, (of_decide_eq_true hbehind).hasCode⟩
  · intro hany
    obtain ⟨r, hr, hcode⟩ := hany
    cases hfind : rs.find? fun r => decide r.HasCode with
    | none => exact absurd hcode (by simpa using List.find?_eq_none.mp hfind r hr)
    | some first => exact ⟨first, List.mem_of_find?_eq_some hfind, decide_eq_true (h.2 first hfind)⟩

/-- The end of a body. -/
theorem closeBody_run (h : p.braceCount = p.back) :
    closeBody egSourceFile c b p =
      match b, c.heading.definitionFile with
      | false, _ => .ok (c, { p with braceStack := p.braceStack.tail })
      | true, none => .ok ({ c with heading := { c.heading with definitionFile := some egSourceFile } },
          { p with braceStack := p.braceStack.tail })
      | true, some file => .error (.error (multiplyDefined egSourceFile c file)) := by
  have herror : errorIf (p.braceCount ≠ p.back) "VERIFY_RTE" p = .ok ((), p) :=
    errorIf_ok.mpr ⟨by simp [h], rfl⟩
  change (errorIf (p.braceCount ≠ p.back) "VERIFY_RTE" >>= fun _ => popBrace >>= fun _ =>
    (if b then _ else pure c) : Parse Context) p = _
  rw [bind_of_ok herror]
  cases b with
  | false => rfl
  | true =>
    cases hfile : c.heading.definitionFile with
    | none => rfl
    | some file =>
      have hpop : popBrace p = .ok ((), { p with braceStack := p.braceStack.tail }) := rfl
      rw [bind_of_ok hpop, if_pos rfl]
      dsimp only [multiplyDefined]
      split <;> rfl

end Whole

/-! ## A run of one token -/

/-- The state at the body of `action A {x}`, and the runs of the body. -/
def oneToken : Parser := ⟨[⟨.identifier "x", 10, 11⟩, ⟨.r_brace, 11, 12⟩], 1, []⟩

theorem oneToken_body : Body (sourceOf "action A \x7bx\x7d") "a.eg" (scan (sourceOf "action A \x7bx\x7d")) 3
    emptyRoot oneToken [⟨⟨.identifier "x", 10, 11⟩, [], "x", emptyRoot, emptyRoot⟩] :=
  ⟨_, rfl, rfl⟩

/-- The state at the body of `action A {x;action B;y;action C;z;}`. -/
def threeRuns : Parser where
  tokens := [⟨.identifier "x", 10, 11⟩, ⟨.semi, 11, 12⟩, ⟨.kw_action, 12, 18⟩, ⟨.identifier "B", 19, 20⟩,
    ⟨.semi, 20, 21⟩, ⟨.identifier "y", 21, 22⟩, ⟨.semi, 22, 23⟩, ⟨.kw_action, 23, 29⟩,
    ⟨.identifier "C", 30, 31⟩, ⟨.semi, 31, 32⟩, ⟨.identifier "z", 32, 33⟩, ⟨.semi, 33, 34⟩,
    ⟨.r_brace, 34, 35⟩]
  braceCount := 1
  braceStack := []

end EgLang.Parsing
