import JobPipeline.Proofs.Dict
import JobPipeline.Proofs.Matching
import JobPipeline.Proofs.Source.Parsing
import JobPipeline.Proofs.Source.Tokens

/-
Every way to write a pipeline is parsed to the same pipeline.

What is written is a list of tokens, with a choice wherever the grammar leaves one: the
form of each value, the separators, attributes behind a chain, and a graph around all of
it.  How it is laid out is a choice of its own.  A text that lays out the tokens is cut
along them into the parts that the readers take, so a reader meets nothing here but what
it is known to take already.
-/
namespace JobPipeline
namespace Source

/-! ## Tokens of statements -/

/-- The ways to write a value. -/
inductive ValueToken : String → Token → Prop
  | quoted (value : String) :
      ValueToken value (.closed '"' (Field.escapeQuoted value.toList ++ ['"']))
  | angles {value : String} : anglesBalanced value.toList = true →
      ValueToken value (.closed '<' (value.toList ++ ['>']))
  | bare {value : String} : isBareLiteral value.toList = true → ValueToken value (.word value.toList)

/-- One of some marks, or nothing. -/
def Perhaps (marks : List Char) (tokens : List Token) : Prop :=
  tokens = [] ∨ ∃ c ∈ marks, tokens = [.closed c []]

inductive AttributeTokens : List (String × String) → List Token → Prop
  | nil : AttributeTokens [] []
  | cons {key value : String} {written : Token} {sep tokens : List Token}
      {pairs : List (String × String)} : Identifier.isWord key.toList = true →
      ValueToken value written → Perhaps [',', ';'] sep → AttributeTokens pairs tokens →
      AttributeTokens ((key, value) :: pairs)
        (.word key.toList :: .closed '=' [] :: written :: (sep ++ tokens))

def bracketed (tokens : List Token) : List Token := .closed '[' [] :: (tokens ++ [.closed ']' []])

def arrowTokens (names : List String) : List Token :=
  names.flatMap fun name => [.closed '-' ['>'], .word name.toList]

/-- The attributes that may stand behind a chain. -/
def ChainEndTokens (tokens : List Token) : Prop :=
  tokens = [] ∨ ∃ pairs attributes, AttributeTokens pairs attributes ∧ tokens = bracketed attributes

inductive StatementTokens : List Item → List Token → Prop
  | nil : StatementTokens [] []
  | task {name : String} {pairs : List (String × String)} {attributes sep tokens : List Token}
      {items : List Item} : Identifier.isWord name.toList = true → AttributeTokens pairs attributes →
      Perhaps [';'] sep → StatementTokens items tokens →
      StatementTokens (.task name pairs :: items)
        (.word name.toList :: (bracketed attributes ++ (sep ++ tokens)))
  | chain {first second : String} {names : List String} {last sep tokens : List Token}
      {items : List Item} : (∀ name ∈ first :: second :: names, Identifier.isWord name.toList = true) →
      ChainEndTokens last → Perhaps [';'] sep → StatementTokens items tokens →
      StatementTokens (.chain (first :: second :: names) :: items)
        (.word first.toList :: (arrowTokens (second :: names) ++ (last ++ (sep ++ tokens))))

/-- The name that a graph may have. -/
def GraphName (tokens : List Token) : Prop :=
  tokens = [] ∨ ∃ name : String, Identifier.isWord name.toList = true ∧ tokens = [.word name.toList]

/-- Statements, perhaps inside of a graph. -/
inductive SourceTokens : List Item → List Token → Prop
  | plain {items : List Item} {tokens : List Token} : StatementTokens items tokens →
      SourceTokens items tokens
  | graph {items : List Item} {name tokens : List Token} : GraphName name →
      StatementTokens items tokens → SourceTokens items (.word "digraph".toList ::
        (name ++ .closed '\x7b' [] :: (tokens ++ [.closed '\x7d' []])))

/-! ## Cutting a text along its tokens -/

theorem Apart.of_append {p : Char → Bool} {cs rest : List Char} (h : Apart p (cs ++ rest)) :
    Apart p cs := by
  cases cs with
  | nil => exact fun c hc => by cases hc
  | cons c cs => exact h

theorem Perhaps.parts {marks : List Char} {sep tokens : List Token} (h : Perhaps marks sep)
    {p : Char → Bool} (hmarks : marks.any p = false) (htokens : ∀ t ∈ tokens.head?, t.Parts p) :
    ∀ t ∈ (sep ++ tokens).head?, t.Parts p := by
  rcases h with rfl | ⟨c, hc, rfl⟩
  · exact htokens
  · intro t ht
    cases ht
    exact Bool.eq_false_iff.2 fun hpc => List.any_eq_false.1 hmarks c hc hpc

theorem Perhaps.separator {marks : List Char} {sep tokens : List Token} (h : Perhaps marks sep)
    {behindWord : Bool} {text : List Char} (hlaid : Laid behindWord (sep ++ tokens) text) :
    ∃ filler written rest behind, Filler filler ∧ Separator marks written ∧
      text = filler ++ (written ++ rest) ∧ Laid behind tokens rest := by
  rcases h with rfl | ⟨c, hc, rfl⟩
  · exact ⟨[], [], text, behindWord, .nil, .inl rfl, rfl, hlaid⟩
  · obtain ⟨filler, rest, hfiller, rfl, hrest⟩ := hlaid.closed_inv
    exact ⟨filler, [c], rest, false, hfiller, .inr ⟨c, hc, rfl⟩, rfl, hrest⟩

theorem ValueToken.valueText {value : String} {t : Token} (h : ValueToken value t) :
    ValueText value.toList t.text := by
  cases h with
  | quoted => exact .quoted _
  | angles hbalanced => exact .angles hbalanced
  | bare hbare => exact .bare hbare

theorem ValueToken.isWord_of_bare {value : String} {t : Token} (h : ValueToken value t)
    (hbare : isBareLiteral t.text = true) : t.isWord = true := by
  cases h with
  | bare => rfl
  | quoted | angles =>
    rw [isBareLiteral, Token.text, List.all_cons, Bool.and_eq_true, Bool.and_eq_true] at hbare
    exact absurd hbare.2.1 (by decide)

theorem AttributeTokens.parts {pairs : List (String × String)} {tokens : List Token}
    (h : AttributeTokens pairs tokens) (more : List Token) :
    ∀ t ∈ (tokens ++ .closed ']' [] :: more).head?, t.Parts isBareChar := by
  intro t ht
  cases h with
  | nil =>
    cases ht
    exact (by decide : isBareChar ']' = false)
  | cons =>
    cases ht
    exact trivial

theorem AttributeTokens.attributesText {pairs : List (String × String)} {tokens more : List Token}
    (h : AttributeTokens pairs tokens) {behindWord : Bool} {text : List Char}
    (hlaid : Laid behindWord (tokens ++ .closed ']' [] :: more) text) :
    ∃ body rest, text = body ++ rest ∧ AttributesText pairs body ∧ Laid false more rest := by
  induction h generalizing behindWord text with
  | nil =>
    obtain ⟨filler, rest, hfiller, rfl, hrest⟩ := hlaid.closed_inv
    exact ⟨filler ++ [']'], rest, by simp, .close hfiller.gap, hrest⟩
  | @cons key value written sep tokens pairs hkey hvalue hsep htokens ih =>
    simp only [List.cons_append, List.append_assoc] at hlaid
    obtain ⟨filler, rest₁, hfiller, rfl, hlaid₁⟩ := hlaid.word_inv
    obtain ⟨filler₁, rest₂, hfiller₁, rfl, hlaid₂⟩ := hlaid₁.closed_inv
    cases hlaid₂ with
    | @token _ filler₂ rest₃ _ _ hfiller₂ _ hlaid₃ =>
      have hapart : isBareLiteral written.text = true → Apart isBareChar rest₃ := by
        intro hbare
        rw [hvalue.isWord_of_bare hbare] at hlaid₃
        exact hlaid₃.apart (by decide) (hsep.parts (by decide) (htokens.parts more))
      obtain ⟨filler₃, mark, rest₄, behind, hfiller₃, hmark, rfl, hlaid₄⟩ := hsep.separator hlaid₃
      obtain ⟨body, rest, rfl, hbody, hrest⟩ := ih hlaid₄
      have hpair := AttributesText.pair hkey hfiller.gap hfiller₁.gap hfiller₂.gap hvalue.valueText
        hfiller₃.gap hmark (fun hbare => by
          have := hapart hbare
          rw [← List.append_assoc mark, ← List.append_assoc filler₃] at this
          exact this.of_append) hbody
      rw [String.ofList_toList, String.ofList_toList] at hpair
      exact ⟨_, rest, by simp only [List.append_assoc, List.cons_append, List.nil_append], hpair, hrest⟩

theorem arrowsText_of_laid {names : List String} {more : List Token}
    (hnames : ∀ name ∈ names, Identifier.isWord name.toList = true) {text : List Char}
    (hlaid : Laid true (arrowTokens names ++ more) text) :
    ∃ body rest, text = body ++ rest ∧ ArrowsText names body ∧ Laid true more rest := by
  induction names generalizing text with
  | nil => exact ⟨[], text, rfl, .nil, hlaid⟩
  | cons name names ih =>
    obtain ⟨hname, hnames⟩ := List.forall_mem_cons.1 hnames
    obtain ⟨filler, rest₁, hfiller, rfl, hlaid₁⟩ := hlaid.closed_inv
    obtain ⟨filler₁, rest₂, hfiller₁, rfl, hlaid₂⟩ := hlaid₁.word_inv
    obtain ⟨body, rest, rfl, hbody, hrest⟩ := ih hnames hlaid₂
    have harrow := ArrowsText.arrow hname hfiller.gap hfiller₁.gap hbody
    rw [String.ofList_toList] at harrow
    exact ⟨_, rest, by simp only [List.append_assoc, List.cons_append, List.nil_append], harrow, hrest⟩

theorem ChainEndTokens.chainEnd {last more : List Token} (h : ChainEndTokens last) {behindWord : Bool}
    {text : List Char} (hlaid : Laid behindWord (last ++ more) text) :
    ∃ body rest behind, text = body ++ rest ∧ ChainEnd body ∧ Laid behind more rest := by
  rcases h with rfl | ⟨pairs, attributes, hattributes, rfl⟩
  · exact ⟨[], text, behindWord, rfl, .nothing, hlaid⟩
  · rw [bracketed, List.cons_append, List.append_assoc] at hlaid
    obtain ⟨filler, rest₁, hfiller, rfl, hlaid₁⟩ := hlaid.closed_inv
    obtain ⟨body, rest, rfl, hbody, hrest⟩ := hattributes.attributesText hlaid₁
    exact ⟨filler ++ '[' :: body, rest, false, by simp, .attributes hfiller.gap hbody, hrest⟩

theorem StatementTokens.parts {items : List Item} {tokens more : List Token}
    (h : StatementTokens items tokens) {p : Char → Bool} (hmore : ∀ t ∈ more.head?, t.Parts p) :
    ∀ t ∈ (tokens ++ more).head?, t.Parts p := by
  cases h with
  | nil => exact hmore
  | task =>
    intro t ht
    cases ht
    exact trivial
  | chain =>
    intro t ht
    cases ht
    exact trivial

theorem ChainEndTokens.parts {last more : List Token} (h : ChainEndTokens last)
    (hmore : ∀ t ∈ more.head?, t.Parts Identifier.isRest) :
    ∀ t ∈ (last ++ more).head?, t.Parts Identifier.isRest := by
  rcases h with rfl | ⟨pairs, attributes, -, rfl⟩
  · exact hmore
  · intro t ht
    cases ht
    exact (by decide : Identifier.isRest '[' = false)

theorem StatementTokens.statementsText {items : List Item} {tokens more : List Token}
    (h : StatementTokens items tokens) (hmore : ∀ t ∈ more.head?, t.Parts Identifier.isRest)
    {behindWord : Bool} {text : List Char} (hlaid : Laid behindWord (tokens ++ more) text) :
    ∃ body rest behind, text = body ++ rest ∧ StatementsText items body ∧ Laid behind more rest := by
  induction h generalizing behindWord text with
  | nil => exact ⟨[], text, behindWord, rfl, .done gap_nil, hlaid⟩
  | @task name pairs attributes sep tokens items hname hattributes hsep htokens ih =>
    simp only [bracketed, List.cons_append, List.append_assoc, List.nil_append] at hlaid
    obtain ⟨filler, rest₁, hfiller, rfl, hlaid₁⟩ := hlaid.word_inv
    obtain ⟨filler₁, rest₂, hfiller₁, rfl, hlaid₂⟩ := hlaid₁.closed_inv
    obtain ⟨list, rest₃, rfl, hlist, hlaid₃⟩ := hattributes.attributesText hlaid₂
    obtain ⟨filler₂, mark, rest₄, behind, hfiller₂, hmark, rfl, hlaid₄⟩ := hsep.separator hlaid₃
    obtain ⟨body, rest, behind, rfl, hbody, hrest⟩ := ih hlaid₄
    have htask := StatementsText.task hname hfiller.gap hfiller₁.gap hlist hfiller₂.gap hmark hbody
    rw [String.ofList_toList] at htask
    exact ⟨_, rest, behind, by simp only [List.append_assoc, List.cons_append, List.nil_append], htask,
      hrest⟩
  | @chain first second names last sep tokens items hnames hlast hsep htokens ih =>
    simp only [List.cons_append, List.append_assoc] at hlaid
    obtain ⟨hfirst, hnames⟩ := List.forall_mem_cons.1 hnames
    obtain ⟨filler, rest₁, hfiller, rfl, hlaid₁⟩ := hlaid.word_inv
    obtain ⟨arrows, rest₂, rfl, harrows, hlaid₂⟩ := arrowsText_of_laid hnames hlaid₁
    have hapart : Apart Identifier.isRest rest₂ :=
      hlaid₂.apart (by decide) (hlast.parts (hsep.parts (by decide) (htokens.parts hmore)))
    obtain ⟨chainEnd, rest₃, behind, rfl, hchainEnd, hlaid₃⟩ := hlast.chainEnd hlaid₂
    obtain ⟨filler₁, mark, rest₄, behind, hfiller₁, hmark, rfl, hlaid₄⟩ := hsep.separator hlaid₃
    obtain ⟨body, rest, behind, rfl, hbody, hrest⟩ := ih hlaid₄
    have hfront : Apart Identifier.isRest (chainEnd ++ (filler₁ ++ (mark ++ body))) := by
      rw [← List.append_assoc mark, ← List.append_assoc filler₁, ← List.append_assoc chainEnd] at hapart
      exact hapart.of_append
    have hchain := StatementsText.chain hfirst hfiller.gap harrows hchainEnd hfiller₁.gap hmark hfront hbody
    rw [String.ofList_toList] at hchain
    exact ⟨_, rest, behind, by simp only [List.append_assoc], hchain, hrest⟩

/-! ## Reading -/

namespace Reader

theorem gives_beginning (rest : List Char) :
    (scanning fun cs => (afterWord? "digraph" cs).map fun rest => ((), rest) : Reader Unit).Gives
      ("digraph".toList ++ rest) (some ((), rest)) := by
  have hlength : "digraph".toList.length = "digraph".length := String.length_toList
  have hafter : afterWord? "digraph" ("digraph".toList ++ rest) = some rest := by
    rw [afterWord?, List.take_left' hlength, List.drop_left' hlength]
    rfl
  have hscan := gives_scanning
    (fun cs => (afterWord? "digraph" cs).map fun rest => ((), rest)) ("digraph".toList ++ rest)
  rwa [hafter] at hscan

/-- The name of a graph is taken if it is there, up to the bracket behind it. -/
theorem gives_graphName {name tokens : List Token} (h : GraphName name) {text : List Char}
    (hlaid : Laid true (name ++ .closed '\x7b' [] :: tokens) text) :
    ∃ given next rest, (optional identifier).Gives (skipGaps text) (some (given, next)) ∧
      skipGaps next = '\x7b' :: rest ∧ Laid false tokens rest := by
  rcases h with rfl | ⟨name, hname, rfl⟩
  · obtain ⟨filler, rest, hfiller, rfl, hrest⟩ := hlaid.closed_inv
    have hskip : skipGaps (filler ++ '\x7b' :: rest) = '\x7b' :: rest :=
      (hfiller.gap _).trans (skipGaps_cons rest (by decide))
    refine ⟨none, '\x7b' :: rest, rest, ?_, skipGaps_cons rest (by decide), hrest⟩
    rw [List.nil_append, hskip]
    refine Gives.optional_none (gives_identifier_none fun c hc => ?_)
    cases hc
    decide
  · obtain ⟨filler, rest₁, hfiller, rfl, hlaid₁⟩ := hlaid.word_inv
    have hapart : Apart Identifier.isRest rest₁ := hlaid₁.apart (by decide) fun t ht => by
      cases ht
      exact (by decide : Identifier.isRest '\x7b' = false)
    obtain ⟨filler₁, rest, hfiller₁, rfl, hrest⟩ := hlaid₁.closed_inv
    refine ⟨some (String.ofList name.toList), _, rest, ?_,
      (hfiller₁.gap _).trans (skipGaps_cons rest (by decide)), hrest⟩
    rw [hfiller.gap, skipGaps_word hname]
    exact Gives.optional (gives_identifier hname hapart)

/-- Statements in a graph are read up to the bracket that closes it. -/
theorem gives_graph {items : List Item} {name tokens more : List Token} (hname : GraphName name)
    (h : StatementTokens items tokens) {text : List Char}
    (hlaid : Laid true (name ++ .closed '\x7b' [] :: (tokens ++ .closed '\x7d' [] :: more)) text) :
    ∃ all rest, graph.Gives ("digraph".toList ++ text) (some (all, rest)) ∧
      all.map Statement.item = items ∧ Laid false more rest := by
  obtain ⟨given, next, inner, hgiven, hnext, hinner⟩ := gives_graphName hname hlaid
  obtain ⟨body, rest₁, behind, rfl, hbody, hlaid₁⟩ := h.statementsText (fun t ht => by
    cases ht
    exact (by decide : Identifier.isRest '\x7d' = false)) hinner
  obtain ⟨filler, rest, hfiller, rfl, hrest⟩ := hlaid₁.closed_inv
  have hbrace : skipGaps (filler ++ '\x7d' :: rest) = '\x7d' :: rest :=
    (hfiller.gap _).trans (skipGaps_cons rest (by decide))
  have hclose : Closes (filler ++ '\x7d' :: rest) := .inr ⟨rest, hbrace⟩
  obtain ⟨all, last, hrepeats, hlast, hitems⟩ := repeats_listedStatement hbody hclose
    (skipGaps_of_stops (hbody.avoids hclose).1)
  have hmany := hrepeats.many
  rw [← statements_eq] at hmany
  refine ⟨all, rest, ?_, hitems, hrest⟩
  refine (gives_beginning text).bind ((gives_gaps rfl).bind (hgiven.bind ((gives_gaps hnext).bind ?_)))
  refine (gives_mark_char '\x7b' _).bind ((gives_gaps rfl).bind (hmany.bind ?_))
  refine (gives_gaps (hlast.trans hbrace)).bind ?_
  exact (gives_mark_char '\x7d' rest).bind (gives_pure all rest)

theorem gives_source_of_laid {items : List Item} {tokens : List Token} (h : SourceTokens items tokens)
    {text : List Char} (hlaid : Laid false tokens text) :
    ∃ all, source.Gives text (some (all, [])) ∧ all.map Statement.item = items := by
  have htail : ∀ {behind rest}, Laid behind [] rest → skipGaps rest = [] := by
    intro behind rest hrest
    cases hrest with
    | tail htail => exact htail.skipGaps
  cases h with
  | plain htokens =>
    rw [← List.append_nil tokens] at hlaid
    obtain ⟨body, rest, behind, rfl, hbody, hrest⟩ :=
      htokens.statementsText (fun t ht => by cases ht) hlaid
    exact gives_source hbody (htail hrest)
  | graph hname htokens =>
    obtain ⟨filler, rest₁, hfiller, rfl, hlaid₁⟩ := hlaid.word_inv
    obtain ⟨all, rest, hgraph, hitems, hrest⟩ := gives_graph hname htokens hlaid₁
    have hword : Identifier.isWord "digraph".toList = true := by decide
    have hskip := (hfiller.gap ("digraph".toList ++ rest₁)).trans (skipGaps_word hword rest₁)
    refine ⟨all, Gives.rule ((gives_gaps hskip).bind ?_) _, hitems⟩
    refine hgraph.orElse.bind ((gives_gaps (htail hrest)).bind ?_)
    exact (Gives.rule (fun f => rfl) _ : endOfInput.Gives [] (some ((), []))).bind (gives_pure _ _)

end Reader

/-! ## Parsing -/

/-- Statements that declare a pipeline. -/
structure Proper (items : List Item) : Prop where
  names : ((declarations items).map Prod.fst).Nodup
  kinds : ∀ d ∈ declarations items, (declaredKind? d.2).isSome = true
  keys : ∀ d ∈ declarations items, (d.2.map Prod.fst).Nodup
  ends : ∀ names, Item.chain names ∈ items → ∀ name ∈ names,
    name ∈ (declarations items).map Prod.fst

/-- A task is what is written of it: its name, its type, and every other attribute. -/
structure ReadsAs (d : String × List (String × String)) (task : ParsedTask) : Prop where
  name : task.name = d.1
  kind : (d.2.lookup "type").bind TaskKind.ofText? = some task.kind
  attributes : ∀ key text, task.attributes.find? key = some text ↔
    key ≠ "type" ∧ ∃ raw, (key, raw) ∈ d.2 ∧ text = FieldText.verbatim raw

theorem find?_fieldTexts {attributes : List (String × String)} (h : (attributes.map Prod.fst).Nodup)
    (key : String) (text : FieldText) :
    (fieldTexts attributes).find? key = some text ↔
      key ≠ "type" ∧ ∃ raw, (key, raw) ∈ attributes ∧ text = FieldText.verbatim raw := by
  have hothers : (attributes.eraseP fun a => a.1 = "type") = attributes.filter fun a => a.1 ≠ "type" :=
    eraseP_eq_filter h "type"
  let kept := (attributes.filter fun a => a.1 ≠ "type").map fun a => (a.1, FieldText.verbatim a.2)
  have hfst : kept.map Prod.fst = (attributes.filter fun a => a.1 ≠ "type").map Prod.fst := by
    rw [List.map_map]
    rfl
  have hkeys : (kept.map Prod.fst).Nodup := by
    rw [hfst]
    exact h.sublist (List.filter_sublist.map Prod.fst)
  have hfields : fieldTexts attributes = Dict.ofList kept := by
    rw [fieldTexts, hothers]
  rw [hfields]
  constructor
  · intro hfound
    have hmem : key ∈ kept.map Prod.fst := by
      by_contra hnot
      rw [Dict.find?_ofList_of_not_mem hnot] at hfound
      cases hfound
    rw [hfst] at hmem
    obtain ⟨⟨key, raw⟩, hfilter, rfl⟩ := List.mem_map.1 hmem
    obtain ⟨hraw, hkey⟩ := List.mem_filter.1 hfilter
    have hstored : (Dict.ofList kept).find? key = some (.verbatim raw) :=
      Dict.find?_ofList_of_mem hkeys (List.mem_map.2 ⟨(key, raw), hfilter, rfl⟩)
    rw [hstored] at hfound
    exact ⟨by simpa using hkey, raw, hraw, (Option.some.inj hfound).symm⟩
  · rintro ⟨hkey, raw, hraw, rfl⟩
    refine Dict.find?_ofList_of_mem hkeys ?_
    exact List.mem_map.2 ⟨(key, raw), List.mem_filter.2 ⟨hraw, by simpa using hkey⟩, rfl⟩

theorem mem_of_mem_consecutive {names : List String} {e : ParsedEdge} (h : e ∈ consecutive names) :
    e.source ∈ names ∧ e.target ∈ names := by
  fun_induction consecutive names with
  | case1 a b rest ih =>
    rcases List.mem_cons.1 h with rfl | hrest
    · exact ⟨List.mem_cons_self, List.mem_cons_of_mem _ List.mem_cons_self⟩
    · exact (ih hrest).imp (List.mem_cons_of_mem _) (List.mem_cons_of_mem _)
  | case2 => cases h

theorem Proper.declared {items : List Item} (h : Proper items) {e : ParsedEdge} (he : e ∈ allPairs items) :
    e.source ∈ (declarations items).map Prod.fst ∧ e.target ∈ (declarations items).map Prod.fst := by
  obtain ⟨item, hitem, hpair⟩ := List.mem_flatMap.1 he
  cases item with
  | task => cases hpair
  | chain names =>
    obtain ⟨hsource, htarget⟩ := mem_of_mem_consecutive hpair
    exact ⟨h.ends names hitem _ hsource, h.ends names hitem _ htarget⟩

theorem foldl_keepFirst_eq_eraseDups (edges : List ParsedEdge) :
    edges.foldl keepFirst [] = edges.eraseDups := by
  induction edges using List.reverseRecOn with
  | nil => rfl
  | append_singleton edges edge ih =>
    rw [List.foldl_append, List.foldl_cons, List.foldl_nil, ih, keepFirst, eraseDups_append_singleton]
    simp only [List.mem_eraseDups]

/-- However statements are written and laid out, they are parsed, to their tasks in order
and to the pairs of their chains in order, each where it comes first. -/
theorem parse_of_laid {items : List Item} {tokens : List Token} {text : String} (hitems : Proper items)
    (htokens : SourceTokens items tokens) (hlaid : Laid false tokens text.toList) :
    ∃ p, parse text = .ok p ∧ List.Forall₂ ReadsAs (declarations items) p.tasks ∧
      p.edges = (allPairs items).eraseDups := by
  obtain ⟨p, hp, htasks, hedges⟩ := parse_of_source (Reader.gives_source_of_laid htokens hlaid)
    hitems.names hitems.kinds fun e he => hitems.declared he
  refine ⟨p, hp, (forall₂_mem htasks).imp fun d task hboth => ?_,
    hedges.trans (foldl_keepFirst_eq_eraseDups _)⟩
  obtain ⟨⟨hd, -⟩, hdeclares⟩ := hboth
  refine ⟨hdeclares.name, hdeclares.kind, fun key text => ?_⟩
  rw [hdeclares.attributes]
  exact find?_fieldTexts (hitems.keys d hd) key text

/-- Nothing stands between the words of this text but where it has to, and a comment ends
with the text. -/
def sketch : String := "digraph\x7ba->b;b[type=any]a[x=1/**/type=<any>]\x7d#"

def sketchItems : List Item :=
  [.chain ["a", "b"], .task "b" [("type", "any")], .task "a" [("x", "1"), ("type", "any")]]

def sketchTokens : List Token :=
  .word "digraph".toList :: .closed '\x7b' [] :: .word ['a'] :: .closed '-' ['>'] :: .word ['b'] ::
    .closed ';' [] :: .word ['b'] :: .closed '[' [] :: .word "type".toList :: .closed '=' [] ::
    .word "any".toList :: .closed ']' [] :: .word ['a'] :: .closed '[' [] :: .word ['x'] ::
    .closed '=' [] :: .word ['1'] :: .word "type".toList :: .closed '=' [] ::
    .closed '<' "any>".toList :: .closed ']' [] :: [.closed '\x7d' []]

theorem parse_of_laid_sketch :
    Proper sketchItems ∧ SourceTokens sketchItems sketchTokens ∧ Laid false sketchTokens sketch.toList ∧
      ∃ p, parse sketch = .ok p ∧ List.Forall₂ ReadsAs (declarations sketchItems) p.tasks ∧
        p.edges = [⟨"a", "b"⟩] := by
  have hends : ∀ names, Item.chain names ∈ sketchItems → ∀ name ∈ names,
      name ∈ (declarations sketchItems).map Prod.fst := by
    intro names hmem
    rcases List.mem_cons.1 hmem with heq | hmem
    · cases heq
      decide
    · exact absurd hmem (by simp)
  have hproper : Proper sketchItems := ⟨by decide, by decide, by decide, hends⟩
  have htype : Identifier.isWord "type".toList = true := by decide
  have hx : AttributeTokens [("x", "1"), ("type", "any")] _ :=
    .cons (by decide) (.bare (by decide)) (.inl rfl)
      (.cons htype (.angles (by decide)) (.inl rfl) .nil)
  have htokens : SourceTokens sketchItems sketchTokens :=
    .graph (.inl rfl) (.chain (by decide) (.inl rfl) (.inr ⟨';', by decide, rfl⟩)
      (.task (by decide) (.cons htype (.bare (by decide)) (.inl rfl) .nil) (.inl rfl)
        (.task (by decide) hx (.inl rfl) .nil)))
  have hcomment : Filler ['/', '*', '*', '/'] := .block (by decide : ¬['*', '/'] <:+: []) .nil
  have hend : Tail ['#'] := .comment .nil (.hash (List.forall_mem_nil _))
  have hlast : Laid true (sketchTokens.drop 17) _ :=
    .token hcomment (by decide) <| .token .nil (by decide) <| .token .nil (by decide) <|
    .token .nil (by decide) <| .token .nil (by decide) <| .tail hend
  have hsecond : Laid false (sketchTokens.drop 10) _ :=
    .token .nil (by decide) <| .token .nil (by decide) <| .token .nil (by decide) <|
    .token .nil (by decide) <| .token .nil (by decide) <| .token .nil (by decide) <|
    .token .nil (by decide) hlast
  have hlaid : Laid false sketchTokens _ :=
    .token .nil (by decide) <| .token .nil (by decide) <| .token .nil (by decide) <|
    .token .nil (by decide) <| .token .nil (by decide) <| .token .nil (by decide) <|
    .token .nil (by decide) <| .token .nil (by decide) <| .token .nil (by decide) <|
    .token .nil (by decide) hsecond
  have htext : Laid false sketchTokens sketch.toList := hlaid
  exact ⟨hproper, htokens, htext, parse_of_laid hproper htokens htext⟩

end Source
end JobPipeline
