import JobPipeline.Proofs.Document.Body
import JobPipeline.Proofs.Import.Splitting
import JobPipeline.Proofs.Source.Unfinished

/-
Where three quotes can stand in a pipeline text.

Names, keys and bare values have no quotes, and in a quoted value each stands behind
a backslash.  A list stands between angle brackets as it is, so three quotes are
inside of a list or nowhere, and the text before them ends inside a value.
-/
namespace JobPipeline

open Import (tripleQuote tripleQuote_eq)
open Source (Gap gap_nil gap_cons ValueText OpenAttributes OpenStatements)

/-- Three quotes do not occur. -/
def NoTriple (cs : List Char) : Prop := Text.aroundMark? tripleQuote cs = none

theorem noTriple_iff (cs : List Char) : NoTriple cs ↔ ¬tripleQuote <:+: cs :=
  Text.aroundMark?_eq_none_iff (by decide) cs

/-- Either three quotes do not occur, or the text before the first of them has a
property. -/
def TripleAt (P : List Char → Prop) (cs : List Char) : Prop :=
  NoTriple cs ∨ ∃ inner rest, Text.aroundMark? tripleQuote cs = some (inner, rest) ∧ P inner

theorem NoTriple.append_tripleAt {front cs : List Char} {P Q : List Char → Prop}
    (hfront : NoTriple front) (hborder : front.getLast? ≠ some '"' ∨ cs.head? ≠ some '"')
    (h : TripleAt P cs) (hP : ∀ inner, inner <+: cs → P inner → Q (front ++ inner)) :
    TripleAt Q (front ++ cs) := by
  have happend := Text.aroundMark?_append_of_none tripleQuote_eq hfront hborder
  rcases h with hnone | ⟨inner, rest, hsome, hinner⟩
  · have hnone : Text.aroundMark? tripleQuote cs = none := hnone
    rw [hnone] at happend
    exact .inl happend
  · have hbegins : inner <+: cs := by
      rw [Text.eq_append_of_aroundMark? hsome]
      exact List.prefix_append _ _
    rw [hsome] at happend
    exact .inr ⟨front ++ inner, rest, happend, hP inner hbegins hinner⟩

theorem NoTriple.append {front cs : List Char} (hfront : NoTriple front)
    (hborder : front.getLast? ≠ some '"' ∨ cs.head? ≠ some '"') (h : NoTriple cs) :
    NoTriple (front ++ cs) := by
  have happend := Text.aroundMark?_append_of_none tripleQuote_eq hfront hborder
  rwa [show Text.aroundMark? tripleQuote cs = none from h] at happend

theorem noTriple_of_not_mem {cs : List Char} (h : '"' ∉ cs) : NoTriple cs := by
  rw [noTriple_iff]
  exact fun hwithin => h (hwithin.subset List.mem_cons_self)

/-! ## Values -/

theorem head?_escapeQuoted (c : Char) (cs rest : List Char) :
    (Field.escapeQuoted (c :: cs) ++ rest).head? ≠ some '"' := by
  rw [Field.escapeQuoted, List.flatMap_cons, Field.escapeQuotedChar]
  split
  · simp
  · next h =>
    have hquote : c ≠ '"' := fun heq => h (.inl heq)
    simpa using hquote

theorem noTriple_escapeQuoted (value : List Char) : NoTriple (Field.escapeQuoted value ++ ['"']) := by
  induction value with
  | nil => exact (by decide : Text.aroundMark? tripleQuote ['"'] = none)
  | cons c cs ih =>
    rw [Field.escapeQuoted, List.flatMap_cons, ← Field.escapeQuoted, List.append_assoc,
      Field.escapeQuotedChar]
    split
    · next h =>
      rcases h with rfl | rfl
      · cases cs with
        | nil => exact (by decide : Text.aroundMark? tripleQuote ['\\', '"', '"'] = none)
        | cons d cs =>
          have hfront : NoTriple ['\\', '"'] :=
            (by decide : Text.aroundMark? tripleQuote ['\\', '"'] = none)
          exact hfront.append (.inr (head?_escapeQuoted d cs _)) ih
      · exact (noTriple_of_not_mem (by decide)).append (.inl (by decide)) ih
    · next h =>
      have hquote : c ≠ '"' := fun heq => h (.inl heq)
      refine (noTriple_of_not_mem ?_).append (.inl ?_) ih
      · simpa using hquote.symm
      · simpa using hquote

theorem noTriple_quoted (value : List Char) :
    NoTriple ('"' :: (Field.escapeQuoted value ++ ['"'])) := by
  cases value with
  | nil => exact (by decide : Text.aroundMark? tripleQuote ['"', '"'] = none)
  | cons c cs =>
    have hfront : NoTriple ['"'] := (by decide : Text.aroundMark? tripleQuote ['"'] = none)
    exact hfront.append (.inr (head?_escapeQuoted c cs _)) (noTriple_escapeQuoted (c :: cs))

theorem noTriple_bare {value : List Char} (h : isBareLiteral value = true) : NoTriple value := by
  refine noTriple_of_not_mem fun hmem => ?_
  rw [isBareLiteral, Bool.and_eq_true] at h
  exact absurd (List.all_eq_true.1 h.2 _ hmem) (by decide)

/-- Three quotes in a value are inside of a list. -/
theorem tripleAt_value {value text : List Char} (h : ValueText value text) :
    TripleAt (fun inner => ∃ more, inner = '<' :: more ∧ Source.anglesInner? 0 more = none) text := by
  cases h with
  | quoted => exact .inl (noTriple_quoted value)
  | bare hbare => exact .inl (noTriple_bare hbare)
  | angles hbalanced =>
    have hopen : NoTriple ['<'] := noTriple_of_not_mem (by decide)
    have hclose : NoTriple ['>'] := noTriple_of_not_mem (by decide)
    refine @NoTriple.append_tripleAt ['<'] _ (fun inner => Source.anglesInner? 0 inner = none) _ hopen
      (.inl (by decide)) ?_ fun inner _ hinner => ⟨inner, rfl, hinner⟩
    cases hvalue : Text.aroundMark? tripleQuote value with
    | none => exact .inl (NoTriple.append hvalue (.inr (by decide)) hclose)
    | some found =>
      obtain ⟨inner, rest⟩ := found
      refine .inr ⟨inner, rest ++ ['>'], Text.aroundMark?_append_of_some hvalue _, ?_⟩
      refine Source.anglesInner?_eq_none hbalanced ?_
      rw [Text.eq_append_of_aroundMark? hvalue]
      exact List.prefix_append _ _

/-! ## Tasks -/

theorem head?_listed (indent : List Char) (attributes : List (List Char)) :
    (Node.listed indent attributes).head? ≠ some '"' := by
  cases attributes with
  | nil => exact (by decide : some ']' ≠ some '"')
  | cons first rest => exact (by decide : some '\n' ≠ some '"')

theorem not_mem_of_isWord {name : List Char} (h : Identifier.isWord name = true) : '"' ∉ name := by
  cases name with
  | nil => cases h
  | cons c name =>
    rw [Identifier.isWord, Bool.and_eq_true] at h
    intro hmem
    rcases List.mem_cons.1 hmem with rfl | hmem
    · exact absurd h.1 (by decide)
    · exact absurd (List.all_eq_true.1 h.2 _ hmem) (by decide)

namespace Node

variable {node : Node} {g : TaskGraph}

/-- The text of an attribute before its value. -/
def beforeValue (node : Node) (key : List Char) : List Char := '\n' :: node.indent ++ (key ++ ['='])

theorem noTriple_beforeValue (node : Node) {key : List Char} (hkey : Identifier.isWord key = true) :
    NoTriple (node.beforeValue key) := by
  have hspace : '"' ∉ node.indent := fun hmem => absurd (List.eq_of_mem_replicate hmem) (by decide)
  refine noTriple_of_not_mem ?_
  simp [beforeValue, hspace, not_mem_of_isWord hkey]

theorem getLast?_beforeValue (node : Node) (key : List Char) :
    (node.beforeValue key).getLast? ≠ some '"' := by
  rw [beforeValue, ← List.append_assoc, List.getLast?_concat]
  decide

theorem listed_cons (node : Node) (key value : List Char) (attributes : List (List Char)) :
    listed node.indent ((key ++ '=' :: value) :: attributes) =
      node.beforeValue key ++ (value ++ listed node.indent attributes) := by
  simp [listed, beforeValue]

/-- The text of a block before the attributes of the fields. -/
def head (node : Node) : List Char :=
  (node.name.toList ++ " [type=".toList) ++ '"' :: (node.kind.name.toList ++ ['"'])

theorem noTriple_head (hname : Identifier.isWord node.name.toList = true) : NoTriple node.head := by
  have hfront : NoTriple (node.name.toList ++ " [type=".toList) := by
    refine noTriple_of_not_mem ?_
    rw [List.mem_append, not_or]
    exact ⟨not_mem_of_isWord hname, by decide⟩
  have hlast : (node.name.toList ++ " [type=".toList).getLast? ≠ some '"' := by
    rw [show " [type=".toList = " [type".toList ++ ['='] from rfl, ← List.append_assoc,
      List.getLast?_concat]
    decide
  have hquoted := noTriple_quoted node.kind.name.toList
  rw [node.kind.escapeQuoted_name] at hquoted
  exact hfront.append (.inl hlast) hquoted

theorem chars_block_head (node : Node) (g : TaskGraph) :
    Document.chars (node.block g) = node.head ++ listed node.indent (node.attributes g) := by
  rw [chars_block, head]
  simp

/-- The front of a list of attributes goes on with no bare value either. -/
theorem apart_of_begins {indent inner : List Char} {attributes : List (List Char)}
    (h : inner <+: listed indent attributes) (hinner : OpenAttributes inner) :
    Source.Apart Source.isBareChar inner := by
  have hne : inner ≠ [] := by
    cases hinner <;> simp
  have hapart := apart_listed indent attributes
  obtain ⟨rest, hrest⟩ := h
  obtain ⟨c, more, rfl⟩ := List.exists_cons_of_ne_nil hne
  rw [← hrest] at hapart
  exact hapart

/-- Three quotes among the attributes of a task are inside of a value. -/
theorem tripleAt_listed (hnode : node.Legible) {layouts : List FieldLayout}
    (hlayouts : ∀ layout ∈ layouts, layout ∈ node.kind.fields) :
    TripleAt OpenAttributes
      (listed node.indent (layouts.filterMap fun layout => layout.attribute? node g)) := by
  induction layouts with
  | nil => exact .inl (by decide : Text.aroundMark? tripleQuote [']'] = none)
  | cons layout layouts ih =>
    obtain ⟨hlayout, hrest⟩ := List.forall_mem_cons.1 hlayouts
    have hregular := TaskKind.regular_of_mem hlayout
    rw [List.filterMap_cons, FieldLayout.attribute?]
    cases homit : layout.omitWhenEmpty && Text.blank (layout.effective node) with
    | true => exact ih hrest
    | false =>
      have hvalue := FieldLayout.valueText_written hregular hnode.incoming
        (hnode.angles layout hlayout) g
      have hkey := hregular.isWord
      have hgap := node.gap_indent
      have hfront := node.noTriple_beforeValue hkey
      have hlast := node.getLast?_beforeValue layout.key.toList
      show TripleAt OpenAttributes (listed node.indent ((layout.key.toList ++ '=' ::
        layout.written node g) :: layouts.filterMap fun layout => layout.attribute? node g))
      rw [listed_cons]
      rcases tripleAt_value hvalue with hnone | ⟨inner, rest, hsome, more, rfl, hmore⟩
      · rw [← List.append_assoc]
        refine (hfront.append (.inl hlast) hnone).append_tripleAt (.inr (head?_listed _ _)) (ih hrest)
          fun inner hbegins hinner => ?_
        have hpair := OpenAttributes.pair hkey hgap gap_nil gap_nil hvalue gap_nil (.inl rfl)
          (apart_of_begins hbegins hinner) hinner
        simpa [beforeValue] using hpair
      · refine hfront.append_tripleAt (.inl hlast)
          (.inr ⟨_, _, Text.aroundMark?_append_of_some hsome _, rfl⟩) fun inner _ hinner => ?_
        have hopen := OpenAttributes.value hkey hgap gap_nil gap_nil hmore
        rw [← hinner]
        simpa [beforeValue] using hopen

/-- Three quotes in the block of a task are inside of a value. -/
theorem tripleAt_block (hnode : node.Legible) :
    TripleAt (fun inner => ∃ attributes, OpenAttributes attributes ∧
      inner = node.name.toList ++ ([' '] ++ '[' :: attributes)) (Document.chars (node.block g)) := by
  have hescape := node.kind.escapeQuoted_name
  rw [chars_block_head]
  refine (noTriple_head hnode.name).append_tripleAt (.inr (head?_listed _ _))
    (tripleAt_listed hnode fun _ h => h) fun inner hbegins hinner => ?_
  have hword : Identifier.isWord "type".toList = true := by decide
  have hpair := OpenAttributes.pair hword gap_nil gap_nil gap_nil
    (.quoted node.kind.name.toList) gap_nil (.inl rfl) (apart_of_begins hbegins hinner) hinner
  rw [hescape] at hpair
  refine ⟨_, hpair, ?_⟩
  rw [head]
  simp

end Node

namespace TaskGraph

/-- Three quotes in a run of tasks are inside of a value. -/
theorem tripleAt_blocks {g : TaskGraph} {nodes : List Node}
    (hnodes : ∀ n ∈ nodes, n.Legible) {rest : List Char} (hrest : NoTriple rest) :
    TripleAt OpenStatements
      ((nodes.flatMap fun n => Document.chars (n.block g) ++ ['\n']) ++ rest) := by
  induction nodes with
  | nil => exact .inl hrest
  | cons n nodes ih =>
    obtain ⟨hn, hothers⟩ := List.forall_mem_cons.1 hnodes
    have hblank : Gap [' '] := gap_cons (by decide) gap_nil
    have hline : Gap ['\n'] := gap_cons (by decide) gap_nil
    rw [List.flatMap_cons, List.append_assoc, List.append_assoc]
    rcases Node.tripleAt_block (g := g) hn with
      hnone | ⟨inner, more, hsome, attributes, hopen, rfl⟩
    · have hblock : NoTriple (Document.chars (n.block g) ++ ['\n']) :=
        hnone.append (.inr (by decide)) (noTriple_of_not_mem (by decide))
      rw [← List.append_assoc]
      refine hblock.append_tripleAt (.inl ?_) (ih hothers) fun inner _ hinner => ?_
      · rw [List.getLast?_concat]
        decide
      · have htask := OpenStatements.task hn.name gap_nil hblank
          (Node.attributesText_declared (g := g) hn) hline (.inl rfl) hinner
        rw [Node.chars_block]
        simpa using htask
    · exact .inr ⟨_, _, Text.aroundMark?_append_of_some hsome _,
        .attributes hn.name gap_nil hblank hopen⟩

theorem noTriple_below {edges : List Edge} (hall : ∀ e ∈ edges, e.Legible) :
    NoTriple (Document.ended (below (edges.map edgeLine))) := by
  have hlines : ∀ line ∈ edges.map edgeLine, '"' ∉ line.text.toList := by
    intro line hline
    obtain ⟨e, he, rfl⟩ := List.mem_map.1 hline
    have hsource := not_mem_of_isWord (hall e he).source
    have htarget := not_mem_of_isWord (hall e he).target
    simp [edgeLine, hsource, htarget]
  refine noTriple_of_not_mem fun hmem => ?_
  obtain ⟨line, hline, hchar⟩ := List.mem_flatMap.1 hmem
  have hnot : '"' ∉ line.text.toList := by
    cases edges with
    | nil => cases hline
    | cons e edges =>
      rcases List.mem_cons.1 hline with rfl | hline
      · exact List.not_mem_nil
      · exact hlines line hline
  rcases List.mem_append.1 hchar with hchar | hchar
  · exact hnot hchar
  · exact absurd (List.mem_singleton.1 hchar) (by decide)

theorem ended_bodyLines (g : TaskGraph) :
    Document.ended g.bodyLines = (g.written.flatMap fun n => Document.chars (n.block g) ++ ['\n']) ++
      Document.ended (below (g.writtenEdges.map edgeLine)) := by
  have hblocks : Document.ended (g.written.flatMap fun n => n.block g) =
      g.written.flatMap fun n => Document.chars (n.block g) ++ ['\n'] := by
    rw [Document.ended, List.flatMap_assoc]
    exact congrArg g.written.flatMap (funext fun n => Document.ended_eq (n.block_ne_nil g))
  rw [bodyLines_eq, Document.ended_append, hblocks]

/-- Three quotes in a pipeline text are inside of a value. -/
theorem WellFormed.tripleAt_ended {g : TaskGraph} (h : g.WellFormed)
    (hbalanced : ∀ n ∈ g.written, n.AnglesBalanced) :
    TripleAt OpenStatements (Document.ended g.bodyLines) := by
  rw [ended_bodyLines]
  exact tripleAt_blocks (h.legible hbalanced) (noTriple_below h.legible_edge)

/-- A line end behind the pipeline text brings no three quotes. -/
theorem noTriple_ended_iff (g : TaskGraph) :
    NoTriple (Document.ended g.bodyLines) ↔ NoTriple g.source.toList := by
  rw [source, Document.toList_joined]
  by_cases hnil : g.bodyLines = []
  · rw [hnil]
    exact Iff.rfl
  · rw [Document.ended_eq hnil]
    constructor
    · intro h
      rcases hfound : Text.aroundMark? tripleQuote (Document.chars g.bodyLines) with _ | ⟨inner, rest⟩
      · exact hfound
      · have hended := Text.aroundMark?_append_of_some hfound ['\n']
        rw [show Text.aroundMark? tripleQuote (Document.chars g.bodyLines ++ ['\n']) = none from h]
          at hended
        cases hended
    · exact fun h => h.append (.inr (by decide)) (noTriple_of_not_mem (by decide))

end TaskGraph
end JobPipeline
