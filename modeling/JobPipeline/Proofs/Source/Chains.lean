import JobPipeline.Proofs.Source.Places
import JobPipeline.Proofs.Source.Writing

/-
Whatever is parsed is well formed, and a chain is no more than its arrows.

From the statements on, a pipeline depends on what is declared and on the pairs of its
chains alone, both in the order of the text.  A chain that is cut at one of its names has
the pairs of its two parts, so it says what they say, however either text is laid out.
-/
namespace JobPipeline

/-- A task without its line. -/
def ParsedTask.unplaced (task : ParsedTask) : ParsedTask := { task with line := 0 }

/-- A pipeline without the lines of its tasks. -/
def ParsedSource.unplaced (p : ParsedSource) : ParsedSource :=
  { p with tasks := p.tasks.map ParsedTask.unplaced }

namespace Source

/-! ## Statements that say the same -/

theorem map_unplaced_eq {declared : List (String × List (String × String))} {tasks tasks' : List ParsedTask}
    (h : List.Forall₂ Declares declared tasks) (h' : List.Forall₂ Declares declared tasks')
    (hids : tasks'.map ParsedTask.id = tasks.map ParsedTask.id) :
    tasks'.map ParsedTask.unplaced = tasks.map ParsedTask.unplaced := by
  induction h generalizing tasks' with
  | nil =>
    cases h'
    rfl
  | @cons d task declared tasks hd _ ih =>
    cases h' with
    | @cons _ task' _ tasks' hd' htasks' =>
      obtain ⟨hid, hids⟩ := List.cons.inj hids
      have hkind : task'.kind = task.kind := Option.some.inj (hd'.kind.symm.trans hd.kind)
      have htask : task'.unplaced = task.unplaced := by
        rw [ParsedTask.unplaced, ParsedTask.unplaced, ParsedTask.mk.injEq]
        exact ⟨hid, hd'.name.trans hd.name.symm, hkind, hd'.attributes.trans hd.attributes.symm, rfl⟩
      rw [List.map_cons, List.map_cons, htask, ih htasks' hids]

/-- Texts that declare the same tasks and have the same arrows, in the same order, are parsed
to the same pipeline but for the lines. -/
theorem parse_of_same {text text' : String} {all all' : List Statement} {p : ParsedSource}
    (hread : read text.toList = .ok all) (hread' : read text'.toList = .ok all')
    (hdeclared : declarations (all'.map Statement.item) = declarations (all.map Statement.item))
    (hpairs : allPairs (all'.map Statement.item) = allPairs (all.map Statement.item))
    (h : parse text = .ok p) : ∃ p', parse text' = .ok p' ∧ p'.unplaced = p.unplaced := by
  have hp := declared_of_parse h
  obtain ⟨all, hread₁, htasks, hjoined⟩ := parse_eq_ok_iff.1 h
  cases hread.symm.trans hread₁
  obtain ⟨new, hnew, hdeclares⟩ := forall₂_of_declareAll _ htasks
  rw [List.nil_append] at hnew
  subst hnew
  obtain ⟨hends, hedges⟩ := edges_of_joinAll hjoined
  rw [arrows_fst] at hends hedges
  have hnames : p.tasks.map ParsedTask.name = (declarations (all.map Statement.item)).map Prod.fst :=
    (map_eq_of_forall₂ hdeclares fun _ _ hd => hd.name.symm).symm
  obtain ⟨p', hp', hdeclares', hedges'⟩ := parse_of_read hread' (by rw [hdeclared, ← hnames]; exact hp.names)
    (by
      rw [hdeclared]
      intro d hd
      obtain ⟨task, -, htask⟩ := forall₂_left hdeclares hd
      rw [htask.kind]
      rfl)
    (by rw [hdeclared, hpairs, ← hnames]; exact hends)
  rw [hdeclared] at hdeclares'
  have hlength : p'.tasks.length = p.tasks.length := hdeclares'.length_eq.symm.trans hdeclares.length_eq
  have hids : p'.tasks.map ParsedTask.id = p.tasks.map ParsedTask.id := by
    rw [(declared_of_parse hp').ids, hp.ids, hlength]
  refine ⟨p', hp', ?_⟩
  rw [ParsedSource.unplaced, ParsedSource.unplaced, map_unplaced_eq hdeclares hdeclares' hids, hedges', hpairs,
    hedges]

/-! ## Cutting a chain -/

theorem consecutive_cut (names more : List String) (name : String) :
    consecutive (names ++ name :: more) = consecutive (names ++ [name]) ++ consecutive (name :: more) := by
  induction names with
  | nil => rfl
  | cons first names ih =>
    cases names with
    | nil => rfl
    | cons second names =>
      show ⟨first, second⟩ :: consecutive (second :: names ++ name :: more) = _
      rw [ih]
      rfl

/-- In place of a chain stand the two parts of it that share a name. -/
inductive Cuts : List Item → List Item → Prop
  | chain (front back : List Item) (names more : List String) (name : String) :
      Cuts (front ++ .chain (names ++ name :: more) :: back)
        (front ++ .chain (names ++ [name]) :: .chain (name :: more) :: back)

theorem Cuts.declarations_eq {items items' : List Item} (h : Cuts items items') :
    declarations items' = declarations items := by
  cases h
  simp only [declarations, List.filterMap_append, List.filterMap_cons, Item.declaration?]

theorem Cuts.allPairs_eq {items items' : List Item} (h : Cuts items items') :
    allPairs items' = allPairs items := by
  cases h with
  | chain front back names more name =>
    simp only [allPairs, List.flatMap_append, List.flatMap_cons, Item.pairs]
    rw [consecutive_cut names more, List.append_assoc]

/-- A chain and the two parts of it say the same, whichever of the two texts is parsed. -/
theorem parse_of_cuts {text text' : String} {all all' : List Statement} {p : ParsedSource}
    (hread : read text.toList = .ok all) (hread' : read text'.toList = .ok all')
    (hcuts : Cuts (all.map Statement.item) (all'.map Statement.item)) :
    (parse text = .ok p → ∃ p', parse text' = .ok p' ∧ p'.unplaced = p.unplaced) ∧
      (parse text' = .ok p → ∃ p', parse text = .ok p' ∧ p'.unplaced = p.unplaced) :=
  ⟨parse_of_same hread hread' hcuts.declarations_eq hcuts.allPairs_eq,
    parse_of_same hread' hread hcuts.declarations_eq.symm hcuts.allPairs_eq.symm⟩

/-! ## Cutting a chain where it stands in a text -/

/-- What may stand between two statements that end and begin with a name. -/
inductive Parting : List Char → Prop
  | filler {filler : List Char} : Filler filler → filler ≠ [] → Parting filler
  | semicolon {filler filler' : List Char} : Filler filler → Filler filler' → Parting (filler ++ ';' :: filler')

/-- The tokens up to a word stay laid out, whatever is laid out behind it. -/
theorem Laid.exists_word {before behind : List Token} {name : List Char} {behindWord : Bool} {text : List Char}
    (h : Laid behindWord (before ++ .word name :: behind) text) :
    ∃ front rest, text = front ++ (name ++ rest) ∧ Laid true behind rest ∧
      ∀ tokens more, Laid true tokens more →
        Laid behindWord (before ++ .word name :: tokens) (front ++ (name ++ more)) := by
  induction before generalizing behindWord text with
  | nil =>
    cases h with
    | @token _ filler rest _ _ hfiller hbetween hrest =>
      exact ⟨filler, rest, rfl, hrest, fun tokens more hmore => .token hfiller hbetween hmore⟩
  | cons token before ih =>
    cases h with
    | @token _ filler text _ _ hfiller hbetween htext =>
      obtain ⟨front, rest, rfl, hrest, hall⟩ := ih htext
      refine ⟨filler ++ (token.text ++ front), rest, by simp only [List.append_assoc], hrest, ?_⟩
      intro tokens more hmore
      simp only [List.append_assoc]
      exact .token hfiller hbetween (hall tokens more hmore)

/-- A name is laid out again behind itself, with a semicolon between or without. -/
theorem Parting.laid {sep : List Char} (h : Parting sep) (name : List Char) {rest : List Char}
    {behind : List Token} (hrest : Laid true behind rest) :
    ∃ mark, Perhaps [';'] mark ∧ Laid true (mark ++ .word name :: behind) (sep ++ (name ++ rest)) := by
  cases h with
  | filler hfiller hne => exact ⟨[], .inl rfl, .token hfiller (fun _ _ => hne) hrest⟩
  | @semicolon filler filler' hfiller hfiller' =>
    refine ⟨[.closed ';' []], .inr ⟨';', List.mem_singleton_self _, rfl⟩, ?_⟩
    rw [List.append_assoc]
    exact .token hfiller (fun _ hword => absurd hword (by decide))
      (.token hfiller' (fun hword => absurd hword (by decide)) hrest)

theorem arrowTokens_append (names more : List String) :
    arrowTokens (names ++ more) = arrowTokens names ++ arrowTokens more := List.flatMap_append

theorem arrowTokens_nil : arrowTokens [] = [] := rfl

theorem arrowTokens_cons (name : String) (names : List String) :
    arrowTokens (name :: names) = .closed '-' ['>'] :: .word name.toList :: arrowTokens names := rfl

theorem StatementTokens.chain_cons {first : String} {names : List String} {last sep tokens : List Token}
    {items : List Item} (hne : names ≠ []) (hnames : ∀ name ∈ first :: names, Identifier.isWord name.toList = true)
    (hlast : ChainEndTokens last) (hsep : Perhaps [';'] sep) (h : StatementTokens items tokens) :
    StatementTokens (.chain (first :: names) :: items)
      (.word first.toList :: (arrowTokens names ++ (last ++ (sep ++ tokens)))) := by
  cases names with
  | nil => exact absurd rfl hne
  | cons second names => exact .chain hnames hlast hsep h

theorem StatementTokens.cut_chain {back : List Item} {first name : String} {names more : List String}
    {tokens : List Token} (hmore : more ≠ [])
    (h : StatementTokens (.chain (first :: (names ++ name :: more)) :: back) tokens) :
    ∃ before behind, tokens = before ++ .word name.toList :: behind ∧ ∀ mark, Perhaps [';'] mark →
      StatementTokens (.chain (first :: (names ++ [name])) :: .chain (name :: more) :: back)
        (before ++ .word name.toList :: (mark ++ .word name.toList :: behind)) := by
  generalize hall : names ++ name :: more = all at h
  cases h with
  | @chain _ second rest last sep tokens _ hwords hlast hsep htokens =>
    rw [← hall, List.forall_mem_cons, List.forall_mem_append] at hwords
    obtain ⟨hfirst, hnames, hbehind⟩ := hwords
    have hname := (List.forall_mem_cons.1 hbehind).1
    refine ⟨.word first.toList :: (arrowTokens names ++ [.closed '-' ['>']]),
      arrowTokens more ++ (last ++ (sep ++ tokens)), ?_, fun mark hmark => ?_⟩
    · rw [← hall, arrowTokens_append, arrowTokens_cons]
      simp only [List.cons_append, List.append_assoc, List.nil_append]
    · have hsecond := StatementTokens.chain_cons hmore hbehind hlast hsep htokens
      have hwords : ∀ n ∈ first :: (names ++ [name]), Identifier.isWord n.toList = true := by
        rw [List.forall_mem_cons, List.forall_mem_append, List.forall_mem_singleton]
        exact ⟨hfirst, hnames, hname⟩
      have hparts := StatementTokens.chain_cons (by simp) hwords (.inl rfl) hmark hsecond
      rw [arrowTokens_append, arrowTokens_cons, arrowTokens_nil] at hparts
      simpa only [List.cons_append, List.append_assoc, List.nil_append] using hparts

/-- The tokens of statements with a chain among them, up to a name inside of the chain and
behind it, and those of the statements with the chain cut there. -/
theorem StatementTokens.cut {front back : List Item} {first name : String} {names more : List String}
    {tokens : List Token} (hmore : more ≠ [])
    (h : StatementTokens (front ++ .chain (first :: (names ++ name :: more)) :: back) tokens) :
    ∃ before behind, tokens = before ++ .word name.toList :: behind ∧ ∀ mark, Perhaps [';'] mark →
      StatementTokens (front ++ .chain (first :: (names ++ [name])) :: .chain (name :: more) :: back)
        (before ++ .word name.toList :: (mark ++ .word name.toList :: behind)) := by
  induction front generalizing tokens with
  | nil => exact h.cut_chain hmore
  | cons item front ih =>
    cases h with
    | @task name' _ attributes sep _ _ hname hattributes hsep htokens =>
      obtain ⟨before, behind, rfl, hcut⟩ := ih htokens
      refine ⟨.word name'.toList :: (bracketed attributes ++ (sep ++ before)), behind, ?_, fun mark hmark => ?_⟩
      · simp only [List.append_assoc, List.cons_append]
      · have htask := StatementTokens.task hname hattributes hsep (hcut mark hmark)
        simpa only [List.append_assoc, List.cons_append] using htask
    | @chain first' second' names' last sep _ _ hwords hlast hsep htokens =>
      obtain ⟨before, behind, rfl, hcut⟩ := ih htokens
      refine ⟨.word first'.toList :: (arrowTokens (second' :: names') ++ (last ++ (sep ++ before))), behind,
        ?_, fun mark hmark => ?_⟩
      · simp only [List.append_assoc, List.cons_append]
      · have hchain := StatementTokens.chain hwords hlast hsep (hcut mark hmark)
        simpa only [List.append_assoc, List.cons_append] using hchain

theorem SourceTokens.cut {front back : List Item} {first name : String} {names more : List String}
    {tokens : List Token} (hmore : more ≠ [])
    (h : SourceTokens (front ++ .chain (first :: (names ++ name :: more)) :: back) tokens) :
    ∃ before behind, tokens = before ++ .word name.toList :: behind ∧ ∀ mark, Perhaps [';'] mark →
      SourceTokens (front ++ .chain (first :: (names ++ [name])) :: .chain (name :: more) :: back)
        (before ++ .word name.toList :: (mark ++ .word name.toList :: behind)) := by
  cases h with
  | plain htokens =>
    obtain ⟨before, behind, rfl, hcut⟩ := htokens.cut hmore
    exact ⟨before, behind, rfl, fun mark hmark => .plain (hcut mark hmark)⟩
  | @graph title _ htitle htokens =>
    obtain ⟨before, behind, rfl, hcut⟩ := htokens.cut hmore
    refine ⟨.word "digraph".toList :: (title ++ .closed '\x7b' [] :: before),
      behind ++ [.closed '\x7d' []], ?_, fun mark hmark => ?_⟩
    · simp only [List.append_assoc, List.cons_append]
    · have hgraph := SourceTokens.graph htitle (hcut mark hmark)
      simpa only [List.append_assoc, List.cons_append] using hgraph

/-- A chain in a text is cut by writing a name inside of it twice. -/
theorem read_of_cut {front back : List Item} {first name : String} {names more : List String}
    {tokens : List Token} {text : List Char} (hmore : more ≠ [])
    (htokens : SourceTokens (front ++ .chain (first :: (names ++ name :: more)) :: back) tokens)
    (hlaid : Laid false tokens text) :
    ∃ before behind, text = before ++ (name.toList ++ behind) ∧ ∀ sep, Parting sep →
      ∃ all, read (before ++ (name.toList ++ (sep ++ (name.toList ++ behind)))) = .ok all ∧
        all.map Statement.item =
          front ++ .chain (first :: (names ++ [name])) :: .chain (name :: more) :: back := by
  obtain ⟨tokensBefore, tokensBehind, rfl, hcut⟩ := htokens.cut hmore
  obtain ⟨before, behind, rfl, hbehind, hlaid⟩ := hlaid.exists_word
  refine ⟨before, behind, rfl, fun sep hsep => ?_⟩
  obtain ⟨mark, hmark, hagain⟩ := hsep.laid name.toList hbehind
  obtain ⟨all, hsource, hitems⟩ := Reader.gives_source_of_laid (hcut mark hmark) (hlaid _ _ hagain)
  exact ⟨all, hsource.read, hitems⟩

/-! ## What is parsed -/

/-- The edges are the pairs of all chains in the order of the text, each where it comes first. -/
theorem edges_of_parse {text : String} {all : List Statement} {p : ParsedSource}
    (hread : read text.toList = .ok all) (h : parse text = .ok p) :
    p.edges = (allPairs (all.map Statement.item)).eraseDups := by
  obtain ⟨all, hread₁, -, hjoined⟩ := parse_eq_ok_iff.1 h
  cases hread.symm.trans hread₁
  rw [(edges_of_joinAll hjoined).2, arrows_fst, foldl_keepFirst_eq_eraseDups]

/-- Whatever is parsed is well formed: ids count the declarations, names are words and
distinct, lines do not decrease, and the edges join declared tasks and are the pairs of the
chains, each where it comes first.  And a chain says what its two parts say, in any two
texts; the parts stand in place of the chain when a name inside of it is written twice. -/
theorem parse_wellFormed :
    (∀ (text : String) (p : ParsedSource), parse text = .ok p →
      p.Declared ∧ (p.tasks.map ParsedTask.line).Pairwise (· ≤ ·) ∧
        ∃ all, read text.toList = .ok all ∧ p.edges = (allPairs (all.map Statement.item)).eraseDups) ∧
      (∀ (text text' : String) (all all' : List Statement) (p : ParsedSource),
        read text.toList = .ok all → read text'.toList = .ok all' →
        Cuts (all.map Statement.item) (all'.map Statement.item) →
        (parse text = .ok p → ∃ p', parse text' = .ok p' ∧ p'.unplaced = p.unplaced) ∧
          (parse text' = .ok p → ∃ p', parse text = .ok p' ∧ p'.unplaced = p.unplaced)) ∧
      ∀ (front back : List Item) (first name : String) (names more : List String) (tokens : List Token)
        (text : String) (p : ParsedSource), more ≠ [] →
        SourceTokens (front ++ .chain (first :: (names ++ name :: more)) :: back) tokens →
        Laid false tokens text.toList → parse text = .ok p →
        ∃ before behind, text.toList = before ++ (name.toList ++ behind) ∧ ∀ sep, Parting sep →
          ∃ p', parse (String.ofList (before ++ (name.toList ++ (sep ++ (name.toList ++ behind))))) = .ok p' ∧
            p'.unplaced = p.unplaced := by
  refine ⟨fun text p h => ?_, fun text text' all all' p hread hread' hcuts => parse_of_cuts hread hread' hcuts, ?_⟩
  · obtain ⟨all, hread, -⟩ := parse_eq_ok_iff.1 h
    exact ⟨declared_of_parse h, pairwise_line_of_parse h, all, hread, edges_of_parse hread h⟩
  · intro front back first name names more tokens text p hmore htokens hlaid h
    obtain ⟨before, behind, htext, hcut⟩ := read_of_cut hmore htokens hlaid
    refine ⟨before, behind, htext, fun sep hsep => ?_⟩
    obtain ⟨all, hsource, hitems⟩ := Reader.gives_source_of_laid htokens hlaid
    obtain ⟨all', hread', hitems'⟩ := hcut sep hsep
    have hcuts : Cuts (all.map Statement.item) (all'.map Statement.item) := by
      rw [hitems, hitems']
      exact .chain front back (first :: names) more name
    rw [← String.toList_ofList
      (l := before ++ (name.toList ++ (sep ++ (name.toList ++ behind))))] at hread'
    exact (parse_of_cuts hsource.read hread' hcuts).1 h

def chained : String := "a->b->c;a[type=any]b[type=any]c[type=any]"

/-- The same with its chain cut, and laid out otherwise. -/
def chainedCut : String := "digraph \x7ba -> b # first\n b -> c; a[type=any]\nb[type=any] c[type=any]\x7d"

def chainedPipeline : ParsedSource :=
  { tasks := [⟨"node_1", "a", .any, Dict.empty, 1⟩, ⟨"node_2", "b", .any, Dict.empty, 1⟩,
      ⟨"node_3", "c", .any, Dict.empty, 1⟩]
    edges := [⟨"a", "b"⟩, ⟨"b", "c"⟩] }

def chainedTasks : List Item :=
  [.task "a" [("type", "any")], .task "b" [("type", "any")], .task "c" [("type", "any")]]

def chainedTokens : List Token :=
  .word ['a'] :: .closed '-' ['>'] :: .word ['b'] :: .closed '-' ['>'] :: .word ['c'] :: .closed ';' [] ::
    .word ['a'] :: .closed '[' [] :: .word "type".toList :: .closed '=' [] :: .word "any".toList ::
    .closed ']' [] :: .word ['b'] :: .closed '[' [] :: .word "type".toList :: .closed '=' [] ::
    .word "any".toList :: .closed ']' [] :: .word ['c'] :: .closed '[' [] :: .word "type".toList ::
    .closed '=' [] :: .word "any".toList :: [.closed ']' []]

theorem parse_wellFormed_chained :
    parse chained = .ok chainedPipeline ∧ chainedPipeline.Declared ∧
      (∃ p', parse chainedCut = .ok p' ∧ p'.unplaced = chainedPipeline.unplaced) ∧
      ∃ before behind, chained.toList = before ++ ('b' :: behind) ∧ ∀ sep, Parting sep →
        ∃ p', parse (String.ofList (before ++ 'b' :: (sep ++ 'b' :: behind))) = .ok p' ∧
          p'.unplaced = chainedPipeline.unplaced := by
  have hparse : parse chained = .ok chainedPipeline := by decide +kernel
  have hread : read chained.toList = .ok [.chain ["a", "b", "c"] 41, .task "a" [("type", "any")] 33,
      .task "b" [("type", "any")] 22, .task "c" [("type", "any")] 11] := by decide +kernel
  have hreadCut : read chainedCut.toList = .ok [.chain ["a", "b"] 60, .chain ["b", "c"] 44,
      .task "a" [("type", "any")] 36, .task "b" [("type", "any")] 24, .task "c" [("type", "any")] 12] := by
    decide +kernel
  have hcuts : Cuts (.chain (["a"] ++ "b" :: ["c"]) :: chainedTasks)
      (.chain (["a"] ++ ["b"]) :: .chain ("b" :: ["c"]) :: chainedTasks) := .chain [] chainedTasks ["a"] ["c"] "b"
  have htype : Identifier.isWord "type".toList = true := by decide
  have htasks : StatementTokens chainedTasks (chainedTokens.drop 6) :=
    .task (by decide) (.cons htype (.bare (by decide)) (.inl rfl) .nil) (.inl rfl)
      (.task (by decide) (.cons htype (.bare (by decide)) (.inl rfl) .nil) (.inl rfl)
        (.task (by decide) (.cons htype (.bare (by decide)) (.inl rfl) .nil) (.inl rfl) .nil))
  have htokens : SourceTokens (.chain ("a" :: ([] ++ "b" :: ["c"])) :: chainedTasks) chainedTokens :=
    .plain (.chain (by decide) (.inl rfl) (.inr ⟨';', by decide, rfl⟩) htasks)
  have hlast : Laid false (chainedTokens.drop 18) _ :=
    .token .nil (by decide) <| .token .nil (by decide) <| .token .nil (by decide) <|
    .token .nil (by decide) <| .token .nil (by decide) <| .token .nil (by decide) <| .tail (.filler .nil)
  have hsecond : Laid true (chainedTokens.drop 9) _ :=
    .token .nil (by decide) <| .token .nil (by decide) <| .token .nil (by decide) <|
    .token .nil (by decide) <| .token .nil (by decide) <| .token .nil (by decide) <|
    .token .nil (by decide) <| .token .nil (by decide) <| .token .nil (by decide) hlast
  have hlaid : Laid false chainedTokens _ :=
    .token .nil (by decide) <| .token .nil (by decide) <| .token .nil (by decide) <|
    .token .nil (by decide) <| .token .nil (by decide) <| .token .nil (by decide) <|
    .token .nil (by decide) <| .token .nil (by decide) <| .token .nil (by decide) hsecond
  have htext : Laid false chainedTokens chained.toList := hlaid
  exact ⟨hparse, (parse_wellFormed.1 _ _ hparse).1,
    (parse_wellFormed.2.1 _ _ _ _ _ hread hreadCut hcuts).1 hparse,
    parse_wellFormed.2.2 [] chainedTasks "a" "b" [] ["c"] _ _ _ (by decide) htokens htext hparse⟩

end Source
end JobPipeline
