import EgLang.Library.Greedy

/-!
# The sections of a unit test file

A unit test file is text in which every comment opens a section: the comment has the section's
identifier and its markdown, and what follows the comment is its code. The grammars are those of
`unittest_parser.cpp`; they read texts of characters of which `ascii::char_` knows the lower half.
-/

namespace EgLang.Driver

open EgLang.Library EgLang.Library.Grammar

set_option autoImplicit false

/-! ## Grammars -/

/-- `ascii::char_`. -/
def isAscii (c : Char) : Bool := c.toNat < 128

/-- `char_( "a-zA-Z" )`. -/
def isLetter (c : Char) : Bool := ('a' ≤ c ∧ c ≤ 'z') ∨ ('A' ≤ c ∧ c ≤ 'Z')

/-- `char_( "a-zA-Z0-9_" )`. -/
def isIdentifierChar (c : Char) : Bool := isLetter c = true ∨ ('0' ≤ c ∧ c ≤ '9') ∨ c = '_'

def commentBegin : List Char := ['/', '*']

def commentEnd : List Char := ['*', '/']

/-- `doc::Identifier`. -/
abbrev Identifier := List (List Char)

/-- `UnitTest::File::Section`. -/
structure Section where
  m_identifier : Identifier
  m_strMarkdown : List Char
  m_code : List Char
deriving DecidableEq, Repr

/-- The parts of an identifier, with dots between them. -/
def Identifier.write : Identifier → List Char
  | [] => []
  | part :: parts => part ++ parts.flatMap fun part => '.' :: part

/-- A section as it stands in a file. -/
def Section.write (s : Section) : List Char :=
  commentBegin ++ (Identifier.write s.m_identifier ++ (s.m_strMarkdown ++ (commentEnd ++ s.m_code)))

namespace IdentifierGrammar

/-- `m_identifier_grammar`. -/
def m_identifier_grammar : Grammar Char (List Char) :=
  ((char isLetter).seq (char isIdentifierChar).kleene).as (fun r => r.1 :: r.2) id
    fun r => congrArg (r.1 :: ·) (List.flatMap_singleton' r.2).symm

/-- The parts after the first one. -/
def furtherPart : Grammar Char (Unit × List Char) := (lit ['.']).seq m_identifier_grammar

def m_main_rule : Grammar Char Identifier :=
  (m_identifier_grammar.seq furtherPart.kleene).as (fun r => r.1 :: r.2.map Prod.snd)
    Identifier.write fun r => congrArg (r.1 ++ ·) (List.flatMap_map ..)

end IdentifierGrammar

namespace SectionGrammar

/-- `*( char_ - "*/" )`. -/
def markdown : Grammar Char (List Char) := (charBut isAscii commentEnd).kleene

/-- `+( char_ - "/*" )`. -/
def code : Grammar Char (List Char) := (charBut isAscii commentBegin).plus

def m_main_rule : Grammar Char Section :=
  ((lit commentBegin).seq
    (IdentifierGrammar.m_main_rule.seq (markdown.seq ((lit commentEnd).seq code)))).as
    (fun r => ⟨r.2.1, r.2.2.1, r.2.2.2.2⟩) Section.write
    fun r => by
      show Section.write _ = commentBegin ++ (Identifier.write r.2.1 ++
        (r.2.2.1.flatMap (fun c => [c]) ++ (commentEnd ++ r.2.2.2.2.flatMap fun c => [c])))
      rw [List.flatMap_singleton', List.flatMap_singleton']
      rfl

end SectionGrammar

namespace SectionVectorGrammar

/-- The text in front of the first comment. -/
def skipped : Grammar Char (List Char) := (charBut isAscii commentBegin).kleene

/-- The skipped text and the sections; the attribute of the rule is the sections. -/
def m_main_rule : Grammar Char (List Char × List Section) :=
  skipped.seq SectionGrammar.m_main_rule.kleene

end SectionVectorGrammar

/-! ## Parsing -/

/-- `boost::spirit_ext::ParseResult`. -/
structure ParseResult where
  bParseSucceeded : Bool

/-- What invokes a grammar on a text: `boost::spirit_ext::invoke_parser_noskip`, which is not part of
the repository. -/
abbrev Invoke (α : Type) := Grammar Char α → List Char → ParseResult × α

/-- The result says whether the grammar has read something, and what it has read. -/
def Invoke.Parses {α : Type} (invoke_parser_noskip : Invoke α) : Prop :=
  ∀ grammar strContents,
    (∀ a rest, grammar.parse strContents = some (a, rest) →
      invoke_parser_noskip grammar strContents = (⟨true⟩, a)) ∧
    (grammar.parse strContents = none →
      (invoke_parser_noskip grammar strContents).1 = ⟨false⟩)

/-- `parseFileSections`: what it returns, and the sections. -/
def parseFileSections (invoke_parser_noskip : Invoke (List Char × List Section))
    (strContents : List Char) : Bool × List Section :=
  let parseResult := invoke_parser_noskip SectionVectorGrammar.m_main_rule strContents
  (parseResult.1.bParseSucceeded, parseResult.2.2)

/-! ## Identifiers -/

/-- The text goes on with a character of an identifier or with another part of it. -/
def continues : List Char → Bool
  | [] => false
  | '.' :: c :: _ => isLetter c
  | c :: _ => isIdentifierChar c

/-- Parts that start with a letter. -/
def Identifier.Valid (identifier : Identifier) : Prop :=
  identifier ≠ [] ∧ ∀ part ∈ identifier, ∃ c cs, part = c :: cs ∧ isLetter c = true ∧
    ∀ d ∈ cs, isIdentifierChar d = true

namespace IdentifierGrammar
variable {text rest : List Char}

theorem consumes_char (q : Char → Bool) : (char q).Consumes :=
  consumes_of_write_ne_nil fun _ _ a _ => List.cons_ne_nil a []

theorem consumes_furtherPart : furtherPart.Consumes :=
  consumes_of_write_ne_nil fun _ _ a _ => List.cons_ne_nil '.' a.2

theorem m_identifier_grammar_eq_some {part : List Char} :
    m_identifier_grammar.parse text = some (part, rest) ↔
      ∃ c mid cs, text = c :: mid ∧ isLetter c = true ∧
        (char isIdentifierChar).kleene.parse mid = some (cs, rest) ∧ part = c :: cs := by
  refine Iff.trans as_parse_eq_some ?_
  constructor
  · intro h
    obtain ⟨r, hr, hpart⟩ := h
    obtain ⟨mid, hc, hcs⟩ := seq_parse_eq_some.mp hr
    obtain ⟨htext, hletter⟩ := char_parse_eq_some.mp hc
    exact ⟨r.1, mid, r.2, htext, hletter, hcs, hpart.symm⟩
  · intro h
    obtain ⟨c, mid, cs, htext, hletter, hcs, hpart⟩ := h
    have hc : (char isLetter).parse text = some (c, mid) := char_parse_eq_some.mpr ⟨htext, hletter⟩
    exact ⟨(c, cs), seq_parse_eq_some.mpr ⟨mid, hc, hcs⟩, hpart.symm⟩

/-- A part ends in front of a character that is none of an identifier. -/
theorem not_isIdentifierChar_of_parse {part : List Char}
    (h : m_identifier_grammar.parse text = some (part, rest)) {c : Char} {tail : List Char}
    (hrest : rest = c :: tail) : isIdentifierChar c = false := by
  obtain ⟨_, mid, cs, -, -, hcs, -⟩ := m_identifier_grammar_eq_some.mp h
  have hstop := (consumes_char isIdentifierChar).kleene_stops hcs
  by_contra hc
  have hparse : (char isIdentifierChar).parse rest = some (c, tail) :=
    char_parse_eq_some.mpr ⟨hrest, by simpa using hc⟩
  rw [hstop] at hparse
  cases hparse

theorem valid_of_parse {part : List Char} (h : m_identifier_grammar.parse text = some (part, rest)) :
    ∃ c cs, part = c :: cs ∧ isLetter c = true ∧ ∀ d ∈ cs, isIdentifierChar d = true := by
  obtain ⟨c, mid, cs, -, hletter, hcs, hpart⟩ := m_identifier_grammar_eq_some.mp h
  have hreads : (char isIdentifierChar).Reads fun d => isIdentifierChar d = true :=
    fun _ _ _ hd => (char_parse_eq_some.mp hd).2
  exact ⟨c, cs, hpart, hletter, (consumes_char isIdentifierChar).reads_kleene hreads _ _ _ hcs⟩

theorem furtherPart_eq_some {part : Unit × List Char} :
    furtherPart.parse text = some (part, rest) ↔
      ∃ mid, text = '.' :: mid ∧ m_identifier_grammar.parse mid = some (part.2, rest) := by
  refine Iff.trans seq_parse_eq_some ?_
  constructor
  · intro h
    obtain ⟨mid, hdot, hpart⟩ := h
    exact ⟨mid, lit_parse_eq_some.mp hdot, hpart⟩
  · intro h
    obtain ⟨mid, htext, hpart⟩ := h
    exact ⟨mid, lit_parse_eq_some.mpr htext, hpart⟩

/-- What is read from a text that starts with a letter. -/
theorem exists_parse {c : Char} (hc : isLetter c = true) (tail : List Char) :
    ∃ identifier rest, m_main_rule.parse (c :: tail) = some (identifier, rest) := by
  obtain ⟨cs, mid, hcs⟩ := (char isIdentifierChar).kleene_parse tail
  obtain ⟨parts, rest, hparts⟩ := furtherPart.kleene_parse mid
  have hpart : m_identifier_grammar.parse (c :: tail) = some (c :: cs, mid) :=
    m_identifier_grammar_eq_some.mpr ⟨c, tail, cs, rfl, hc, hcs, rfl⟩
  exact ⟨_, rest, as_parse_eq_some.mpr
    ⟨(c :: cs, parts), seq_parse_eq_some.mpr ⟨mid, hpart, hparts⟩, rfl⟩⟩

/-- An identifier is valid, and ends in front of a text that does not go on with it. -/
theorem m_main_rule_spec {identifier : Identifier}
    (h : m_main_rule.parse text = some (identifier, rest)) :
    identifier.Valid ∧ continues rest = false := by
  obtain ⟨r, hr, hid⟩ := as_parse_eq_some.mp h
  obtain ⟨mid, hpart, hparts⟩ := seq_parse_eq_some.mp hr
  have hreads : furtherPart.Reads fun part => ∃ c cs, part.2 = c :: cs ∧ isLetter c = true ∧
      ∀ d ∈ cs, isIdentifierChar d = true := by
    intro _ _ part hfurther
    obtain ⟨_, -, hfurther⟩ := furtherPart_eq_some.mp hfurther
    exact valid_of_parse hfurther
  have hvalid := consumes_furtherPart.reads_kleene hreads _ _ _ hparts
  have hstop : furtherPart.parse rest = none := consumes_furtherPart.kleene_stops hparts
  have hnot : ∀ c tail, rest = c :: tail → isIdentifierChar c = false := by
    refine consumes_furtherPart.kleene_rule
      (C := fun text _ rest => (∀ c tail, text = c :: tail → isIdentifierChar c = false) →
        ∀ c tail, rest = c :: tail → isIdentifierChar c = false)
      (fun _ _ h => h) ?_ hparts fun c tail => not_isIdentifierChar_of_parse hpart
    intro _ _ _ _ _ hfurther ih _
    obtain ⟨_, -, hfurther⟩ := furtherPart_eq_some.mp hfurther
    exact ih fun c tail => not_isIdentifierChar_of_parse hfurther
  rw [← hid]
  refine ⟨⟨List.cons_ne_nil _ _, ?_⟩, ?_⟩
  · intro part hmem
    cases List.mem_cons.mp hmem with
    | inl heq =>
      rw [heq]
      exact valid_of_parse hpart
    | inr hmem =>
      obtain ⟨further, hfurther, rfl⟩ := List.mem_map.mp hmem
      exact hvalid further hfurther
  · unfold continues
    split
    · rfl
    · next c tail =>
      by_contra hletter
      have hc : isLetter c = true := by simpa using hletter
      obtain ⟨cs, rest', hcs⟩ := (char isIdentifierChar).kleene_parse tail
      have hpart' : m_identifier_grammar.parse (c :: tail) = some (c :: cs, rest') :=
        m_identifier_grammar_eq_some.mpr ⟨c, tail, cs, rfl, hc, hcs, rfl⟩
      have hfurther : furtherPart.parse ('.' :: c :: tail) = some (((), c :: cs), rest') :=
        furtherPart_eq_some.mpr ⟨_, rfl, hpart'⟩
      rw [hstop] at hfurther
      cases hfurther
    · next c tail _ => exact hnot c tail rfl

end IdentifierGrammar

theorem isLetter_isIdentifierChar {c : Char} (h : isLetter c = true) : isIdentifierChar c = true := by
  simp [isIdentifierChar, h]

theorem toNat_lt_of_isIdentifierChar {c : Char} (h : isIdentifierChar c = true) :
    c.toNat < 128 ∧ c ≠ '*' := by
  simp only [isIdentifierChar, isLetter, decide_eq_true_eq] at h
  have hle : ∀ d : Char, c ≤ d → c.toNat ≤ d.toNat := fun d h => h
  have hge : ∀ d : Char, d ≤ c → d.toNat ≤ c.toNat := fun d h => h
  have hstar : ∀ n, n ≤ c.toNat → 43 ≤ n → c ≠ '*' := by
    intro n hn hn' heq
    rw [heq] at hn
    exact absurd (hn'.trans hn) (by decide)
  obtain (⟨hlo, hhi⟩ | ⟨hlo, hhi⟩) | ⟨hlo, hhi⟩ | heq := h
  · exact ⟨(hle _ hhi).trans_lt (by decide), hstar _ (hge _ hlo) (by decide)⟩
  · exact ⟨(hle _ hhi).trans_lt (by decide), hstar _ (hge _ hlo) (by decide)⟩
  · exact ⟨(hle _ hhi).trans_lt (by decide), hstar _ (hge _ hlo) (by decide)⟩
  · rw [heq]
    decide

/-- The characters of an identifier are ASCII characters other than the star of a comment's end. -/
theorem Identifier.Valid.char_of_mem_write {identifier : Identifier} (h : identifier.Valid) {c : Char}
    (hc : c ∈ identifier.write) : isAscii c = true ∧ c ≠ '*' := by
  have hpart : ∀ part ∈ identifier, c ∈ part → isAscii c = true ∧ c ≠ '*' := by
    intro part hmem hc
    obtain ⟨d, ds, rfl, hletter, hds⟩ := h.2 part hmem
    have hid : isIdentifierChar c = true := by
      cases List.mem_cons.mp hc with
      | inl heq =>
        rw [heq]
        exact isLetter_isIdentifierChar hletter
      | inr hmem => exact hds c hmem
    obtain ⟨hlt, hne⟩ := toNat_lt_of_isIdentifierChar hid
    exact ⟨decide_eq_true hlt, hne⟩
  cases identifier with
  | nil => cases hc
  | cons part parts =>
    cases List.mem_append.mp hc with
    | inl hmem => exact hpart part List.mem_cons_self hmem
    | inr hmem =>
      obtain ⟨further, hfurther, hmem⟩ := List.mem_flatMap.mp hmem
      cases List.mem_cons.mp hmem with
      | inl heq =>
        rw [heq]
        decide
      | inr hmem => exact hpart further (List.mem_cons_of_mem part hfurther) hmem

/-! ## Sections -/

/-- A section whose parts end where they have to. -/
structure Section.Valid (s : Section) : Prop where
  identifier : s.m_identifier.Valid
  not_continues : continues s.m_strMarkdown = false
  markdown : ¬ commentEnd <:+: s.m_strMarkdown
  code_ne_nil : s.m_code ≠ []
  code : ¬ commentBegin <:+: s.m_code

/-- **Well-formed texts.** A text of comments that start with a letter, are closed, and have some text
between them and the next one. -/
inductive Sections : List Char → Prop
  | nil : Sections []
  | cons {c : Char} {body code rest : List Char} (hc : isLetter c = true)
      (hbody : ∀ d ∈ body, isAscii d = true) (hclosed : ¬ commentEnd <:+: body)
      (hne : code ≠ []) (hcode : ∀ d ∈ code, isAscii d = true) (hopen : ¬ commentBegin <:+: code)
      (hrest : Sections rest) :
      Sections (commentBegin ++ (c :: body ++ (commentEnd ++ (code ++ rest))))

/-- A text in front of the first comment, and sections up to the end. -/
def WellFormed (strContents : List Char) : Prop :=
  ∃ skipped rest, strContents = skipped ++ rest ∧ (∀ c ∈ skipped, isAscii c = true) ∧
    ¬ commentBegin <:+: skipped ∧ Sections rest

theorem Sections.front {text : List Char} (h : Sections text) :
    text = [] ∨ commentBegin <+: text := by
  cases h with
  | nil => exact Or.inl rfl
  | cons hc hbody hclosed hne hcode hopen hrest => exact Or.inr (List.prefix_append ..)

namespace SectionGrammar
variable {text rest : List Char} {s : Section}

theorem code_eq_some {as : List Char} :
    code.parse text = some (as, rest) ↔
      as ≠ [] ∧ (charBut isAscii commentBegin).kleene.parse text = some (as, rest) := by
  refine Iff.trans plus_parse_eq_some ?_
  constructor
  · intro h
    obtain ⟨a, mid, as', ha, has, heq⟩ := h
    rw [← heq]
    exact ⟨List.cons_ne_nil a as', (consumes_charBut _ _).kleene_of_some ha has⟩
  · intro h
    obtain ⟨hne, hparse⟩ := h
    cases ha : (charBut isAscii commentBegin).parse text with
    | none =>
      rw [kleene_of_none ha] at hparse
      exact absurd (Prod.mk.inj (Option.some.inj hparse)).1.symm hne
    | some r =>
      obtain ⟨as', rest', has⟩ := (charBut isAscii commentBegin).kleene_parse r.2
      rw [(consumes_charBut _ _).kleene_of_some ha has] at hparse
      obtain ⟨hcons, hrest⟩ := Prod.mk.inj (Option.some.inj hparse)
      exact ⟨r.1, r.2, as', rfl, by rw [has, hrest], hcons⟩

/-- A section is read part by part. -/
theorem m_main_rule_eq_some :
    m_main_rule.parse text = some (s, rest) ↔
      ∃ begun named marked, text = commentBegin ++ begun ∧
        IdentifierGrammar.m_main_rule.parse begun = some (s.m_identifier, named) ∧
        markdown.parse named = some (s.m_strMarkdown, commentEnd ++ marked) ∧
        code.parse marked = some (s.m_code, rest) := by
  refine Iff.trans as_parse_eq_some ?_
  constructor
  · intro h
    obtain ⟨r, hr, hs⟩ := h
    obtain ⟨begun, hbegin, hr⟩ := seq_parse_eq_some.mp hr
    obtain ⟨named, hid, hr⟩ := seq_parse_eq_some.mp hr
    obtain ⟨closed, hmarkdown, hr⟩ := seq_parse_eq_some.mp hr
    obtain ⟨marked, hend, hcode⟩ := seq_parse_eq_some.mp hr
    rw [← hs]
    refine ⟨begun, named, marked, lit_parse_eq_some.mp hbegin, hid, ?_, hcode⟩
    rw [← lit_parse_eq_some.mp hend]
    exact hmarkdown
  · intro h
    obtain ⟨begun, named, marked, hbegin, hid, hmarkdown, hcode⟩ := h
    refine ⟨((), s.m_identifier, s.m_strMarkdown, (), s.m_code), ?_, rfl⟩
    refine seq_parse_eq_some.mpr ⟨begun, lit_parse_eq_some.mpr hbegin, ?_⟩
    refine seq_parse_eq_some.mpr ⟨named, hid, ?_⟩
    refine seq_parse_eq_some.mpr ⟨commentEnd ++ marked, hmarkdown, ?_⟩
    exact seq_parse_eq_some.mpr ⟨marked, lit_parse_eq_some.mpr rfl, hcode⟩

theorem consumes_m_main_rule : m_main_rule.Consumes :=
  consumes_of_write_ne_nil fun _ _ _ _ => List.cons_ne_nil _ _

theorem continues_of_append {l l' : List Char} (h : continues (l ++ '*' :: l') = false) :
    continues l = false := by
  cases l with
  | nil => rfl
  | cons c l =>
    cases l with
    | nil =>
      by_cases hc : c = '.'
      · rw [hc]
        decide
      · simpa [continues, hc] using h
    | cons d l =>
      by_cases hc : c = '.'
      · rw [hc] at h ⊢
        exact h
      · simpa [continues, hc] using h

/-- A section that is read is valid, and in front of sections it is one more. -/
theorem valid_of_parse (h : m_main_rule.parse text = some (s, rest)) :
    s.Valid ∧ (Sections rest → Sections text) := by
  obtain ⟨begun, named, marked, hbegin, hid, hmarkdown, hcode⟩ := m_main_rule_eq_some.mp h
  obtain ⟨hne, hcode⟩ := code_eq_some.mp hcode
  obtain ⟨hnamed, hmarkdownAscii, hclosed⟩ := charBut_kleene hmarkdown
  obtain ⟨hmarked, hcodeAscii, hopen⟩ := charBut_kleene hcode
  obtain ⟨hvalid, hcontinues⟩ := IdentifierGrammar.m_main_rule_spec hid
  have hbegun := IdentifierGrammar.m_main_rule.written hid
  refine ⟨⟨hvalid, ?_, hclosed, hne, hopen⟩, fun hrest => ?_⟩
  · rw [hnamed] at hcontinues
    exact continues_of_append hcontinues
  · -- the letter is the first character of the identifier, the body is all else up to the end
    have hletter : ∃ c tail, Identifier.write s.m_identifier = c :: tail ∧ isLetter c = true := by
      obtain ⟨hnil, hparts⟩ := hvalid
      cases hparts' : s.m_identifier with
      | nil => exact absurd hparts' hnil
      | cons part parts =>
        obtain ⟨c, cs, hpart, hc, -⟩ := hparts part (by rw [hparts']; exact List.mem_cons_self)
        exact ⟨c, _, by rw [hpart]; rfl, hc⟩
    obtain ⟨c, tail, hwrite, hc⟩ := hletter
    have htail : ∀ d ∈ tail, isAscii d = true ∧ d ≠ '*' := fun d hd =>
      hvalid.char_of_mem_write (by rw [hwrite]; exact List.mem_cons_of_mem c hd)
    have hbody : ¬ commentEnd <:+: tail ++ s.m_strMarkdown := by
      clear hwrite
      induction tail with
      | nil => exact hclosed
      | cons d tail ih =>
        rw [List.forall_mem_cons] at htail
        rw [List.cons_append, List.infix_cons_iff, not_or]
        refine ⟨fun hfront => htail.1.2 ?_, ih htail.2⟩
        exact (List.cons_prefix_cons.mp hfront).1.symm
    have hsections := Sections.cons hc (fun d hd => (List.mem_append.mp hd).elim
      (fun h => (htail d h).1) (hmarkdownAscii d)) hbody hne hcodeAscii hopen hrest
    rw [hbegin]
    show Sections (commentBegin ++ begun)
    have htext : begun = c :: (tail ++ s.m_strMarkdown) ++ (commentEnd ++ (s.m_code ++ rest)) := by
      rw [← hmarked, hbegun]
      show Identifier.write s.m_identifier ++ named = _
      rw [hwrite, hnamed]
      simp
    rw [htext]
    exact hsections

/-- The text of a section is read. -/
theorem exists_parse {c : Char} {body as rest : List Char} (hc : isLetter c = true)
    (hbody : ∀ d ∈ body, isAscii d = true) (hclosed : ¬ commentEnd <:+: body) (hne : as ≠ [])
    (has : ∀ d ∈ as, isAscii d = true) (hopen : ¬ commentBegin <:+: as)
    (hrest : rest = [] ∨ commentBegin <+: rest) :
    ∃ s, m_main_rule.parse (commentBegin ++ (c :: body ++ (commentEnd ++ (as ++ rest)))) =
      some (s, rest) := by
  obtain ⟨identifier, named, hid⟩ :=
    IdentifierGrammar.exists_parse hc (body ++ (commentEnd ++ (as ++ rest)))
  have hwritten := IdentifierGrammar.m_main_rule.written hid
  have hvalid := (IdentifierGrammar.m_main_rule_spec hid).1
  -- the identifier ends before the star of the comment's end
  have hmarkdown : ∃ strMarkdown, c :: body = identifier.write ++ strMarkdown ∧
      named = strMarkdown ++ (commentEnd ++ (as ++ rest)) := by
    have happend : (c :: body) ++ (commentEnd ++ (as ++ rest)) = identifier.write ++ named := hwritten
    cases List.append_eq_append_iff.mp happend with
    | inl h =>
      obtain ⟨beyond, hwrite, hend⟩ := h
      cases beyond with
      | nil => exact ⟨[], by simpa using hwrite.symm, by simpa using hend.symm⟩
      | cons d beyond =>
        have hstar : d = '*' := (List.cons.inj hend).1.symm
        have hmem : d ∈ identifier.write := by
          rw [hwrite]
          exact List.mem_append_right _ List.mem_cons_self
        exact absurd hstar (hvalid.char_of_mem_write hmem).2
    | inr h => exact h
  obtain ⟨strMarkdown, hfront, hnamed⟩ := hmarkdown
  have hsub : ∀ d ∈ strMarkdown, isAscii d = true := by
    intro d hd
    have hmem : d ∈ c :: body := by
      rw [hfront]
      exact List.mem_append_right _ hd
    cases List.mem_cons.mp hmem with
    | inl heq =>
      rw [heq]
      exact decide_eq_true (toNat_lt_of_isIdentifierChar (isLetter_isIdentifierChar hc)).1
    | inr hmem => exact hbody d hmem
  have hinfix : ¬ commentEnd <:+: strMarkdown := by
    intro hinfix
    have hmem : commentEnd <:+: c :: body := by
      rw [hfront]
      exact hinfix.trans (List.suffix_append _ _).isInfix
    cases List.infix_cons_iff.mp hmem with
    | inl hprefix =>
      have hstar : '*' = c := (List.cons_prefix_cons.mp hprefix).1
      exact (toNat_lt_of_isIdentifierChar (isLetter_isIdentifierChar hc)).2 hstar.symm
    | inr hinfix => exact hclosed hinfix
  refine ⟨⟨identifier, strMarkdown, as⟩, m_main_rule_eq_some.mpr ⟨_, named, as ++ rest, rfl, hid, ?_, ?_⟩⟩
  · rw [hnamed]
    exact charBut_kleene_append (by decide) hsub hinfix (Or.inr (List.prefix_append ..))
  · exact code_eq_some.mpr ⟨hne, charBut_kleene_append (by decide) has hopen hrest⟩

/-- Reading sections reaches the end just from a text of sections. -/
theorem kleene_reaches_end_iff :
    (∃ sections, m_main_rule.kleene.parse text = some (sections, [])) ↔ Sections text := by
  constructor
  · intro h
    obtain ⟨sections, h⟩ := h
    refine consumes_m_main_rule.kleene_rule (C := fun text _ rest => rest = [] → Sections text)
      ?_ ?_ h rfl
    · intro text _ hnil
      rw [hnil]
      exact Sections.nil
    · intro _ _ _ _ _ hparse ih hnil
      exact (valid_of_parse hparse).2 (ih hnil)
  · intro h
    induction h with
    | nil => exact ⟨[], rfl⟩
    | cons hc hbody hclosed hne hcode hopen hrest ih =>
      obtain ⟨sections, ih⟩ := ih
      obtain ⟨s, hs⟩ := exists_parse hc hbody hclosed hne hcode hopen hrest.front
      exact ⟨s :: sections, consumes_m_main_rule.kleene_of_some hs ih⟩

end SectionGrammar

/-! ## Files -/

section Files
variable (invoke_parser_noskip : Invoke (List Char × List Section))

/-- The sections, as they are written, make up the text from the first comment on. -/
def Written (strContents : List Char) (sections : List Section) : Prop :=
  ∃ skipped, strContents = skipped ++ sections.flatMap Section.write ∧ ¬ commentBegin <:+: skipped ∧
    ∀ s ∈ sections, s.Valid

/-- A result that is true comes with all sections, and from a text that was read to its end. -/
def AccountsFor (strContents : List Char) : Prop :=
  (parseFileSections invoke_parser_noskip strContents).1 = true →
    Written strContents (parseFileSections invoke_parser_noskip strContents).2 ∧
      ∀ r, SectionVectorGrammar.m_main_rule.parse strContents = some r → r.2 = []

variable {invoke_parser_noskip}

/-- The grammar of a file reads a text, whatever it is, and true is returned. -/
theorem parseFileSections_eq (hinvoke : invoke_parser_noskip.Parses) (strContents : List Char) :
    ∃ skipped mid sections rest,
      SectionVectorGrammar.skipped.parse strContents = some (skipped, mid) ∧
      SectionGrammar.m_main_rule.kleene.parse mid = some (sections, rest) ∧
      SectionVectorGrammar.m_main_rule.parse strContents = some ((skipped, sections), rest) ∧
      parseFileSections invoke_parser_noskip strContents = (true, sections) := by
  obtain ⟨skipped, mid, hskipped⟩ := (charBut isAscii commentBegin).kleene_parse strContents
  obtain ⟨sections, rest, hsections⟩ := SectionGrammar.m_main_rule.kleene_parse mid
  have hparse : SectionVectorGrammar.m_main_rule.parse strContents = some ((skipped, sections), rest) :=
    seq_parse_eq_some.mpr ⟨mid, hskipped, hsections⟩
  refine ⟨skipped, mid, sections, rest, hskipped, hsections, hparse, ?_⟩
  rw [parseFileSections, (hinvoke _ _).1 _ _ hparse]

/-- The file is read to its end just if it is well formed. -/
theorem reaches_end_iff {strContents skipped mid : List Char} {sections : List Section}
    {rest : List Char} (hskipped : SectionVectorGrammar.skipped.parse strContents = some (skipped, mid))
    (hsections : SectionGrammar.m_main_rule.kleene.parse mid = some (sections, rest)) :
    rest = [] ↔ WellFormed strContents := by
  constructor
  · intro hnil
    rw [hnil] at hsections
    obtain ⟨htext, hascii, hopen⟩ := charBut_kleene hskipped
    exact ⟨skipped, mid, htext, hascii, hopen,
      SectionGrammar.kleene_reaches_end_iff.mp ⟨sections, hsections⟩⟩
  · intro h
    obtain ⟨front, text, htext, hascii, hopen, htail⟩ := h
    have hskipped' : SectionVectorGrammar.skipped.parse strContents = some (front, text) := by
      rw [htext]
      exact charBut_kleene_append (by decide) hascii hopen htail.front
    rw [hskipped] at hskipped'
    obtain ⟨sections', hsections'⟩ := SectionGrammar.kleene_reaches_end_iff.mpr htail
    rw [← (Prod.mk.inj (Option.some.inj hskipped')).2, hsections] at hsections'
    exact (Prod.mk.inj (Option.some.inj hsections')).2

/-- **Sections of a file.** True is returned for every text, so it is right just for the texts that
are well formed. -/
theorem accountsFor_iff (hinvoke : invoke_parser_noskip.Parses) (strContents : List Char) :
    AccountsFor invoke_parser_noskip strContents ↔ WellFormed strContents := by
  obtain ⟨skipped, mid, sections, rest, hskipped, hsections, hparse, hfile⟩ :=
    parseFileSections_eq hinvoke strContents
  rw [← reaches_end_iff hskipped hsections, AccountsFor, hfile, hparse]
  constructor
  · intro h
    exact (h rfl).2 _ rfl
  · intro hnil _
    rw [hnil] at hsections ⊢
    obtain ⟨htext, -, hopen⟩ := charBut_kleene hskipped
    have hwritten := SectionGrammar.m_main_rule.kleene.written hsections
    refine ⟨⟨skipped, ?_, hopen, ?_⟩, ?_⟩
    · rw [htext, hwritten, List.append_nil]
      rfl
    · exact SectionGrammar.consumes_m_main_rule.reads_kleene
        (fun _ _ _ hs => (SectionGrammar.valid_of_parse hs).1) _ _ _ hsections
    · intro r hr
      rw [← Option.some.inj hr]

/-- A runner of grammars, for texts that are read. -/
def invokeGrammar : Invoke (List Char × List Section) := fun grammar strContents =>
  match grammar.parse strContents with
  | some (a, _) => (⟨true⟩, a)
  | none => (⟨false⟩, ([], []))

theorem invokeGrammar_parses : Invoke.Parses invokeGrammar := by
  intro grammar strContents
  constructor
  · intro a rest h
    rw [invokeGrammar, h]
  · intro h
    rw [invokeGrammar, h]

/-- A text in front of two sections. -/
def notes : List Char := "see below /*a.b first*/x = 1;/*c*/ y".toList

/-- They are read as they stand there. -/
theorem notes_accountsFor : parseFileSections invokeGrammar notes =
      (true, [⟨["a".toList, "b".toList], " first".toList, "x = 1;".toList⟩,
        ⟨["c".toList], [], " y".toList⟩]) ∧
    AccountsFor invokeGrammar notes := by
  have hskipped : SectionVectorGrammar.skipped.parse notes =
      some ("see below ".toList, "/*a.b first*/x = 1;/*c*/ y".toList) := by decide +kernel
  have hsections : SectionGrammar.m_main_rule.kleene.parse "/*a.b first*/x = 1;/*c*/ y".toList =
      some ([⟨["a".toList, "b".toList], " first".toList, "x = 1;".toList⟩, ⟨["c".toList], [], " y".toList⟩],
        []) := by decide +kernel
  refine ⟨by decide +kernel, (accountsFor_iff invokeGrammar_parses notes).mpr ?_⟩
  exact (reaches_end_iff hskipped hsections).mp rfl

/-- Two sections of which the first one has no code. -/
def bare : List Char := "/*a*//*b*/x".toList

/-- True is returned with no section. -/
theorem bare_not_accountsFor : ¬ AccountsFor invokeGrammar bare := by
  intro h
  have hparse : SectionVectorGrammar.m_main_rule.parse bare = some (([], []), bare) := by decide +kernel
  have hfile : (parseFileSections invokeGrammar bare).1 = true := by decide +kernel
  exact absurd ((h hfile).2 _ hparse) (by decide)

end Files

end EgLang.Driver
