import JobPipeline.Proofs.Document.Values
import JobPipeline.Proofs.Graph.WellFormed
import JobPipeline.Proofs.Source.Statements
import JobPipeline.Proofs.Text.Joining

/-
The pipeline text lays out statements.

Its lines are put together to one text: a block for each written task, then an
empty line and a line for each edge between written tasks.  A value may contain
line breaks, so the lines of a block are not its attributes; put together they are
the attributes again, each behind a line break and the indent.
-/
namespace JobPipeline

open Source (Gap gap_nil gap_cons gap_replicate AttributesText Item StatementsText ArrowsText)

namespace Document

def chars (lines : Document) : List Char :=
  Text.joinWith ['\n'] (lines.map fun line => line.text.toList)

theorem toList_joined (lines : Document) : (joined lines).toList = chars lines := by
  rw [joined, String.toList_intercalate, chars, Text.joinWith_eq_intercalate, List.map_map]
  rfl

theorem chars_append {first second : Document} (hfirst : first ≠ []) (hsecond : second ≠ []) :
    chars (first ++ second) = chars first ++ '\n' :: chars second := by
  rw [chars, List.map_append, Text.joinWith_append]
  · rfl
  · simpa using hfirst
  · simpa using hsecond

/-- Lines with their ends. -/
def ended (lines : Document) : List Char := lines.flatMap fun line => line.text.toList ++ ['\n']

theorem ended_append (first second : Document) :
    ended (first ++ second) = ended first ++ ended second := List.flatMap_append

theorem chars_concat (lines : Document) (last : DocumentLine) :
    chars (lines ++ [last]) = ended lines ++ last.text.toList := by
  induction lines with
  | nil => rfl
  | cons line lines ih =>
    have hcons : chars (line :: (lines ++ [last])) =
        chars [line] ++ '\n' :: chars (lines ++ [last]) :=
      chars_append (List.cons_ne_nil line []) (List.append_ne_nil_of_right_ne_nil _ (List.cons_ne_nil _ _))
    have hline : chars [line] = line.text.toList := rfl
    rw [List.cons_append, hcons, hline, ih]
    simp only [ended, List.flatMap_cons, List.append_assoc, List.cons_append, List.nil_append]

theorem ended_eq {lines : Document} (h : lines ≠ []) : ended lines = chars lines ++ ['\n'] := by
  have hempty := chars_concat lines ⟨"", none, true⟩
  rw [chars_append h (List.cons_ne_nil _ _)] at hempty
  have hnil : ("" : String).toList = [] := rfl
  rw [hnil, List.append_nil] at hempty
  exact hempty.symm

end Document

open Document (chars)

theorem TaskKind.escapeQuoted_name (kind : TaskKind) :
    Field.escapeQuoted kind.name.toList = kind.name.toList := by
  have hall : ∀ kind ∈ TaskKind.all, Field.escapeQuoted kind.name.toList = kind.name.toList := by
    decide
  exact hall kind (TaskKind.mem_all kind)

namespace Node

/-! ## Blocks -/

/-- The attributes of a block, each on its own line, and the closing bracket. -/
def listed (indent : List Char) : List (List Char) → List Char
  | [] => [']']
  | first :: rest => '\n' :: (indent ++ (first ++ listed indent rest))

def indent (node : Node) : List Char := List.replicate (node.name.utf8ByteSize + 2) ' '

theorem chars_split (text : List Char) (valid : Option Bool) :
    chars ((Text.splitOn '\n' text).map fun line => bodyLine line valid) = text := by
  have hlines : ∀ line ∈ Text.splitOn '\n' text,
      ((fun l : DocumentLine => l.text.toList) ∘ fun line => bodyLine line valid) line = line :=
    fun line _ => String.toList_ofList
  rw [chars, List.map_map, List.map_congr_left hlines, List.map_id', Text.joinWith_splitOn]

theorem attributeLines_ne_nil (node : Node) {attributes : List (List Char)} (h : attributes ≠ []) :
    node.attributeLines attributes ≠ [] := by
  cases attributes with
  | nil => exact absurd rfl h
  | cons first rest =>
    rw [attributeLines]
    refine List.append_ne_nil_of_left_ne_nil ?_ _
    simpa using Text.splitOn_ne_nil _ _

theorem chars_attributeLines (node : Node) {attributes : List (List Char)} (h : attributes ≠ []) :
    '\n' :: chars (node.attributeLines attributes) = listed node.indent attributes := by
  induction attributes with
  | nil => exact absurd rfl h
  | cons first rest ih =>
    rw [attributeLines, listed]
    cases rest with
    | nil =>
      rw [if_pos rfl, attributeLines, List.append_nil, chars_split, listed, List.append_assoc]
      rfl
    | cons next rest =>
      have hsplit : (Text.splitOn '\n' (node.indent ++ first ++ [])).map
          (fun line => bodyLine line (some node.isValid)) ≠ [] := by
        simpa using Text.splitOn_ne_nil _ _
      rw [if_neg (List.cons_ne_nil next rest), ← ih (List.cons_ne_nil next rest)]
      show '\n' :: chars ((Text.splitOn '\n' (node.indent ++ first ++ [])).map _ ++ _) = _
      rw [Document.chars_append hsplit (node.attributeLines_ne_nil (List.cons_ne_nil next rest)),
        chars_split, List.append_nil, List.append_assoc]

def attributes (node : Node) (g : TaskGraph) : List (List Char) :=
  node.kind.fields.filterMap fun layout => layout.attribute? node g

theorem block_ne_nil (node : Node) (g : TaskGraph) : node.block g ≠ [] := by
  rw [block]
  split <;> simp

theorem chars_block (node : Node) (g : TaskGraph) :
    chars (node.block g) = node.name.toList ++ ([' '] ++ '[' :: ("type=\"".toList ++
      (node.kind.name.toList ++ '"' :: listed node.indent (node.attributes g)))) := by
  have hline : ∀ text valid, chars [bodyLine text valid] = text := by
    intro text valid
    exact String.toList_ofList
  have hblock : chars (node.block g) = (node.name.toList ++ " [type=\"".toList ++
      node.kind.name.toList ++ ['"']) ++ listed node.indent (node.attributes g) := by
    rw [block]
    split
    · next hnil =>
      rw [hline, attributes, hnil]
      rfl
    · next hne =>
      rw [← List.singleton_append, Document.chars_append (List.cons_ne_nil _ _)
        (node.attributeLines_ne_nil hne), hline, node.chars_attributeLines hne]
      rfl
  rw [hblock]
  simp

/-! ## A task is a statement -/

/-- The fields that a declaration gives, each in its normal form. -/
def declaredFields (node : Node) (g : TaskGraph) (layouts : List FieldLayout) :
    List (String × String) :=
  layouts.filterMap fun layout =>
    if layout.omitWhenEmpty && Text.blank (layout.effective node) then none
    else some (layout.key, String.ofList (layout.normal node g))

/-- The attributes of a task as a declaration has them. -/
def declared (node : Node) (g : TaskGraph) : List (String × String) :=
  ("type", node.kind.name) :: node.declaredFields g node.kind.fields

theorem gap_indent (node : Node) : Gap ('\n' :: node.indent) :=
  gap_cons (by decide) (gap_replicate (by decide) _)

variable {node : Node} {g : TaskGraph}

theorem apart_listed (indent : List Char) (attributes : List (List Char)) :
    Source.Apart isBareChar (listed indent attributes) := by
  intro c hc
  cases attributes with
  | nil =>
    cases hc
    decide
  | cons first rest =>
    cases hc
    decide

/-- A task that can be read back: its names are words, and the angle brackets of its
lists are balanced. -/
structure Legible (node : Node) : Prop where
  name : Identifier.isWord node.name.toList = true
  incoming : ∀ name ∈ node.incoming, Identifier.isWord name.toList = true
  angles : node.AnglesBalanced

theorem attributesText_listed (hnode : node.Legible) {layouts : List FieldLayout}
    (hlayouts : ∀ layout ∈ layouts, layout ∈ node.kind.fields) :
    AttributesText (node.declaredFields g layouts)
      (listed node.indent (layouts.filterMap fun layout => layout.attribute? node g)) := by
  induction layouts with
  | nil => exact .close gap_nil
  | cons layout layouts ih =>
    obtain ⟨hlayout, hrest⟩ := List.forall_mem_cons.1 hlayouts
    have hregular := TaskKind.regular_of_mem hlayout
    rw [declaredFields, List.filterMap_cons, List.filterMap_cons, FieldLayout.attribute?]
    cases homit : layout.omitWhenEmpty && Text.blank (layout.effective node) with
    | true => exact ih hrest
    | false =>
      have hvalue := FieldLayout.valueText_written hregular hnode.incoming
        (hnode.angles layout hlayout) g
      have hpair := AttributesText.pair hregular.isWord node.gap_indent gap_nil gap_nil hvalue gap_nil
        (.inl rfl) (fun _ => apart_listed node.indent _) (ih hrest)
      rw [String.ofList_toList] at hpair
      have htext : listed node.indent ((layout.key.toList ++ '=' :: layout.written node g) ::
            layouts.filterMap fun layout => layout.attribute? node g) =
          ('\n' :: node.indent) ++ (layout.key.toList ++ ([] ++ '=' :: ([] ++ (layout.written node g ++
            ([] ++ ([] ++ listed node.indent
              (layouts.filterMap fun layout => layout.attribute? node g))))))) := by
        simp [listed]
      rw [← htext] at hpair
      exact hpair

theorem attributesText_declared (hnode : node.Legible) :
    AttributesText (node.declared g) ("type=\"".toList ++
      (node.kind.name.toList ++ '"' :: listed node.indent (node.attributes g))) := by
  have hkind := node.kind.escapeQuoted_name
  have hword : Identifier.isWord "type".toList = true := by decide
  have hpair := AttributesText.pair hword gap_nil gap_nil gap_nil
    (.quoted node.kind.name.toList) gap_nil (.inl rfl) (fun _ => apart_listed node.indent _)
    (attributesText_listed (g := g) hnode fun _ h => h)
  rw [String.ofList_toList, String.ofList_toList, hkind] at hpair
  have htext : "type=\"".toList ++ (node.kind.name.toList ++ '"' ::
        listed node.indent (node.attributes g)) =
      [] ++ ("type".toList ++ ([] ++ '=' :: ([] ++ ('"' :: (node.kind.name.toList ++ ['"']) ++
        ([] ++ ([] ++ listed node.indent (node.attributes g))))))) := by
    simp
  rw [htext]
  exact hpair

theorem statementsText_block (hnode : node.Legible) {gap : List Char} (hgap : Gap gap) {items : List Item}
    {text : List Char} (h : StatementsText items text) :
    StatementsText (.task node.name (node.declared g) :: items)
      (gap ++ (chars (node.block g) ++ text)) := by
  have htask := StatementsText.task hnode.name hgap (gap_cons (c := ' ') (by decide) gap_nil)
    (attributesText_declared (g := g) hnode) gap_nil (.inl rfl) h
  rw [String.ofList_toList] at htask
  rw [chars_block]
  simpa using htask

end Node

/-- An edge between names that are words. -/
structure Edge.Legible (e : Edge) : Prop where
  source : Identifier.isWord e.sourceName.toList = true
  target : Identifier.isWord e.targetName.toList = true

namespace TaskGraph

def written (g : TaskGraph) : List Node := g.nodes.filter fun n => n.kind.isWritten

def writtenEdges (g : TaskGraph) : List Edge := g.edges.filter g.isWritten

def items (g : TaskGraph) : List Item :=
  (g.written.map fun n => .task n.name (n.declared g)) ++
    g.writtenEdges.map fun e => .chain [e.sourceName, e.targetName]

/-! ## The whole text -/

theorem statementsText_edge {e : Edge} (he : e.Legible) {gap : List Char} (hgap : Gap gap)
    {items : List Item} {text : List Char} (hapart : Source.Apart Identifier.isRest text)
    (h : StatementsText items text) :
    StatementsText (.chain [e.sourceName, e.targetName] :: items)
      (gap ++ ((edgeLine e).text.toList ++ text)) := by
  have hblank : Gap [' '] := gap_cons (by decide) gap_nil
  have hchain := StatementsText.chain he.source hgap (.arrow he.target hblank hblank .nil) .nothing gap_nil
    (.inl rfl) hapart h
  rw [String.ofList_toList, String.ofList_toList] at hchain
  have hline : (edgeLine e).text.toList =
      e.sourceName.toList ++ ' ' :: '-' :: '>' :: ' ' :: e.targetName.toList := by
    simp [edgeLine]
  rw [hline]
  simpa using hchain

theorem apart_lines (lines : List (List Char)) :
    Source.Apart Identifier.isRest (lines.flatMap fun line => '\n' :: line) := by
  intro c hc
  cases lines with
  | nil => cases hc
  | cons line lines =>
    cases hc
    decide

theorem statementsText_edges {edges : List Edge} (hall : ∀ e ∈ edges, e.Legible) :
    StatementsText (edges.map fun e => .chain [e.sourceName, e.targetName])
      (((edges.map edgeLine).map fun line => line.text.toList).flatMap fun line => '\n' :: line) := by
  induction edges with
  | nil => exact .done gap_nil
  | cons e edges ih =>
    obtain ⟨he, hedges⟩ := List.forall_mem_cons.1 hall
    exact statementsText_edge he (gap_cons (c := '\n') (by decide) gap_nil)
      (apart_lines _) (ih hedges)

theorem statementsText_blocks (g : TaskGraph) {nodes : List Node}
    (hnodes : ∀ n ∈ nodes, n.Legible) {items : List Item} {text : List Char} (h : StatementsText items text) :
    StatementsText ((nodes.map fun n => .task n.name (n.declared g)) ++ items)
      (((nodes.map fun n => chars (n.block g)).flatMap fun block => '\n' :: block) ++ text) := by
  induction nodes with
  | nil => exact h
  | cons n nodes ih =>
    obtain ⟨hn, hrest⟩ := List.forall_mem_cons.1 hnodes
    have hblock := Node.statementsText_block (g := g) hn (gap_cons (c := '\n') (by decide) gap_nil) (ih hrest)
    simpa using hblock

theorem chars_blocks (g : TaskGraph) (nodes : List Node) (lines : Document) :
    chars ((nodes.flatMap fun n => n.block g) ++ lines) =
      Text.joinWith ['\n'] ((nodes.map fun n => chars (n.block g)) ++
        lines.map fun line => line.text.toList) := by
  let texts (lines : Document) := lines.map fun line => line.text.toList
  have hgroups : ∀ group ∈ (nodes.map fun n => texts (n.block g)) ++ lines.map fun line => texts [line],
      group ≠ [] := by
    intro group hgroup
    rcases List.mem_append.1 hgroup with hgroup | hgroup
    · obtain ⟨n, _, rfl⟩ := List.mem_map.1 hgroup
      simpa [texts] using n.block_ne_nil g
    · obtain ⟨line, _, rfl⟩ := List.mem_map.1 hgroup
      exact List.cons_ne_nil _ _
  have hflatten := Text.joinWith_flatten ['\n'] hgroups
  have hlines : (lines.map fun line => texts [line]).flatten = texts lines := by
    rw [← List.flatMap_def]
    exact List.map_eq_flatMap.symm
  rw [List.flatten_append, hlines, List.map_append, List.map_map, List.map_map] at hflatten
  rw [chars, List.map_append, List.map_flatMap, List.flatMap_def]
  exact hflatten

/-- Lines with an empty line above them, if there are any. -/
def below : Document → Document
  | [] => []
  | lines => ⟨"", none, true⟩ :: lines

theorem bodyLines_eq (g : TaskGraph) :
    g.bodyLines = (g.written.flatMap fun n => n.block g) ++ below (g.writtenEdges.map edgeLine) := by
  rw [bodyLines, writtenEdges]
  cases g.edges.filter g.isWritten with
  | nil => exact (List.append_nil _).symm
  | cons e edges => rfl

theorem statementsText_below {edges : List Edge} (hall : ∀ e ∈ edges, e.Legible) :
    StatementsText (edges.map fun e => .chain [e.sourceName, e.targetName])
      (((below (edges.map edgeLine)).map fun line => line.text.toList).flatMap
        fun line => '\n' :: line) := by
  cases edges with
  | nil => exact .done gap_nil
  | cons e edges =>
    obtain ⟨he, hedges⟩ := List.forall_mem_cons.1 hall
    have hgap : Gap ['\n', '\n'] := gap_cons (by decide) (gap_cons (by decide) gap_nil)
    exact statementsText_edge he hgap (apart_lines _) (statementsText_edges hedges)

theorem WellFormed.isWord_incoming {g : TaskGraph} (h : g.WellFormed) {n : Node} (hn : n ∈ g.nodes) :
    ∀ name ∈ n.incoming, Identifier.isWord name.toList = true := by
  intro name hname
  rw [h.incoming n hn] at hname
  obtain ⟨e, he, rfl⟩ := List.mem_map.1 hname
  obtain ⟨m, hm, _, hsource⟩ := h.sources e (List.mem_filter.1 he).1
  rw [← hsource]
  exact Source.isWord_of_isValid (h.validNames m hm)

theorem WellFormed.legible {g : TaskGraph} (h : g.WellFormed)
    (hbalanced : ∀ n ∈ g.written, n.AnglesBalanced) : ∀ n ∈ g.written, n.Legible := by
  intro n hn
  have hmem : n ∈ g.nodes := (List.mem_filter.1 hn).1
  exact ⟨Source.isWord_of_isValid (h.validNames n hmem), h.isWord_incoming hmem, hbalanced n hn⟩

theorem WellFormed.legible_edge {g : TaskGraph} (h : g.WellFormed) :
    ∀ e ∈ g.writtenEdges, e.Legible := by
  intro e hmem
  have he : e ∈ g.edges := (List.mem_filter.1 hmem).1
  obtain ⟨s, hs, _, hsource⟩ := h.sources e he
  obtain ⟨t, ht, _, htarget⟩ := h.targets e he
  constructor
  · rw [← hsource]
    exact Source.isWord_of_isValid (h.validNames s hs)
  · rw [← htarget]
    exact Source.isWord_of_isValid (h.validNames t ht)

/-- The pipeline text of a graph lays out its tasks and then its edges. -/
theorem WellFormed.statementsText_source {g : TaskGraph} (h : g.WellFormed)
    (hbalanced : ∀ n ∈ g.written, n.AnglesBalanced) : StatementsText g.items g.source.toList := by
  have hnodes := h.legible hbalanced
  have hedges := h.legible_edge
  have hbelow := statementsText_below hedges
  rw [source, Document.toList_joined, bodyLines_eq, chars_blocks, items]
  cases hwritten : g.written with
  | nil =>
    rw [List.map_nil, List.nil_append, List.map_nil, List.nil_append]
    cases hlist : g.writtenEdges with
    | nil => exact .done gap_nil
    | cons e edges =>
      rw [hlist] at hedges
      have hjoin := Text.joinWith_cons ['\n'] []
        (((e :: edges).map edgeLine).map fun line => line.text.toList)
      rw [List.nil_append] at hjoin
      have hlines := statementsText_edges hedges
      show StatementsText _ (Text.joinWith ['\n'] ([] :: _))
      rw [hjoin]
      exact hlines
  | cons n nodes =>
    rw [hwritten] at hnodes
    obtain ⟨hn, hrest⟩ := List.forall_mem_cons.1 hnodes
    have htext := Node.statementsText_block (g := g) hn gap_nil (statementsText_blocks g hrest hbelow)
    have hjoin := Text.joinWith_cons ['\n'] (chars (n.block g))
      ((nodes.map fun n => chars (n.block g)) ++
        (below (g.writtenEdges.map edgeLine)).map fun line => line.text.toList)
    rw [List.flatMap_append] at hjoin
    rw [List.map_cons, List.map_cons, List.cons_append, List.cons_append, hjoin]
    exact htext

/-- A line end behind the pipeline text changes nothing. -/
theorem WellFormed.statementsText_ended {g : TaskGraph} (h : g.WellFormed)
    (hbalanced : ∀ n ∈ g.written, n.AnglesBalanced) :
    StatementsText g.items (Document.ended g.bodyLines) := by
  have hsource := h.statementsText_source hbalanced
  rw [source, Document.toList_joined] at hsource
  by_cases hnil : g.bodyLines = []
  · rw [hnil] at hsource ⊢
    exact hsource
  · rw [Document.ended_eq hnil]
    exact hsource.endLine

end TaskGraph
end JobPipeline
