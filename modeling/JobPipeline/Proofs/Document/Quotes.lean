import JobPipeline.Proofs.Document.Marks

/-
Pipeline texts without three quotes.

A list is the only value that is written as it is.  Its items are parts of the text of the field,
and what is put between them and around them has no quotes, so three quotes in the list were
three quotes in the field.  Every other border between two pieces has a character on one side that
is no quote.
-/
namespace JobPipeline

open Import (tripleQuote)
open JobPipeline.Field (token)

theorem NoTriple.infix {cs ds : List Char} (h : NoTriple ds) (hwithin : cs <:+: ds) : NoTriple cs := by
  rw [noTriple_iff] at h ⊢
  exact fun htriple => h (htriple.trans hwithin)

/-! ## Lists -/

theorem noTriple_joinWith {items : List (List Char)} (h : ∀ i ∈ items, NoTriple i) :
    NoTriple (Text.joinWith [',', ' '] items) := by
  have hcomma : NoTriple [',', ' '] := noTriple_of_not_mem (by decide)
  induction items with
  | nil => exact noTriple_of_not_mem List.not_mem_nil
  | cons first rest ih =>
    obtain ⟨hfirst, hrest⟩ := List.forall_mem_cons.1 h
    cases rest with
    | nil => exact hfirst
    | cons second rest =>
      have hbehind := hcomma.append (.inl (by decide)) (ih hrest)
      rw [Text.joinWith, List.append_assoc]
      exact hfirst.append (.inr (by simp)) hbehind

theorem noTriple_renderArray {items : List (List Char)} (h : ∀ i ∈ items, NoTriple i) :
    NoTriple (Field.renderArray items) := by
  have hopen : NoTriple ['[', ' '] := noTriple_of_not_mem (by decide)
  have hclose : NoTriple [' ', ']'] := noTriple_of_not_mem (by decide)
  rw [Field.renderArray]
  split
  · exact noTriple_of_not_mem (by decide)
  · exact (hopen.append (.inl (by decide)) (noTriple_joinWith h)).append (.inr (by decide)) hclose

theorem noTriple_token {name : List Char} (h : Identifier.isWord name = true) : NoTriple (token name) := by
  refine noTriple_of_not_mem ?_
  have hname := not_mem_of_isWord h
  simp [token, hname]

theorem TaskGraph.noTriple_elements (g : TaskGraph) {raw : List Char} (h : NoTriple raw) :
    ∀ i ∈ g.elements raw, NoTriple i := by
  intro i hi
  obtain ⟨item, hitem, rfl⟩ := List.mem_map.1 hi
  rcases g.element_eq item with heq | ⟨heq, hvalid, -⟩
  · rw [heq]
    exact h.infix (Field.infix_of_mem_arrayItems hitem)
  · rw [heq]
    exact noTriple_token (Field.isWord_of_isValid_ofList hvalid)

/-- No list of a task has three quotes in the text of its field. -/
def Node.ListsClear (n : Node) : Prop :=
  ∀ layout ∈ n.kind.fields, layout.style.isArray = true → ¬tripleQuote <:+: (n.field layout.key).toList

instance (n : Node) : Decidable n.ListsClear :=
  inferInstanceAs (Decidable (∀ layout ∈ _, _ → ¬_))

/-- A task whose text has no three quotes: its names are words, and its lists have none. -/
structure Node.Clear (n : Node) : Prop where
  name : Identifier.isWord n.name.toList = true
  incoming : ∀ name ∈ n.incoming, Identifier.isWord name.toList = true
  lists : n.ListsClear

namespace FieldLayout

variable {layout : FieldLayout} {node : Node}

theorem noTriple_normal (h : layout.Regular) (harray : layout.style.isArray = true)
    (hincoming : ∀ name ∈ node.incoming, Identifier.isWord name.toList = true)
    (hraw : NoTriple (node.field layout.key).toList) (g : TaskGraph) :
    NoTriple (layout.normal node g) := by
  rw [normal_of_isArray h harray]
  refine noTriple_renderArray fun i hi => ?_
  rcases layout.items_eq node g with heq | heq
  · rw [heq] at hi
    exact g.noTriple_elements hraw i hi
  · rw [heq] at hi
    obtain ⟨name, hname, rfl⟩ := List.mem_map.1 hi
    exact noTriple_token (words_of_isWord hincoming name hname)

theorem noTriple_written (hlayout : layout ∈ node.kind.fields) (hnode : node.Clear) (g : TaskGraph) :
    NoTriple (layout.written node g) := by
  have hregular := TaskKind.regular_of_mem hlayout
  have hopen : NoTriple ['<'] := noTriple_of_not_mem (by decide)
  have hclose : NoTriple ['>'] := noTriple_of_not_mem (by decide)
  have hangles : ∀ value, NoTriple value → NoTriple ('<' :: (value ++ ['>'])) := fun value hvalue =>
    hopen.append (.inl (by decide)) (hvalue.append (.inr (by decide)) hclose)
  have hlist : layout.style.isArray = true → NoTriple (layout.normal node g) := fun harray =>
    noTriple_normal hregular harray hnode.incoming
      ((noTriple_iff _).2 (hnode.lists layout hlayout harray)) g
  rw [written_eq]
  cases hstyle : layout.style with
  | bare =>
    rw [FieldStyle.wrapped]
    split
    · next hbare => exact noTriple_bare hbare
    · exact noTriple_quoted _
  | quoted | body | escaped => exact noTriple_quoted _
  | array | incomingArray => exact hangles _ (hlist (by rw [hstyle]; rfl))

end FieldLayout

/-! ## Tasks -/

namespace Node

variable {node : Node}

theorem noTriple_listed (hnode : node.Clear) (g : TaskGraph) {layouts : List FieldLayout}
    (hlayouts : ∀ layout ∈ layouts, layout ∈ node.kind.fields) :
    NoTriple (listed node.indent (layouts.filterMap fun layout => layout.attribute? node g)) := by
  induction layouts with
  | nil => exact (noTriple_of_not_mem (by decide) : NoTriple [']'])
  | cons layout layouts ih =>
    obtain ⟨hlayout, hrest⟩ := List.forall_mem_cons.1 hlayouts
    rw [List.filterMap_cons, FieldLayout.attribute?]
    cases homit : layout.omitWhenEmpty && Text.blank (layout.effective node) with
    | true => exact ih hrest
    | false =>
      have hkey := node.noTriple_beforeValue (TaskKind.regular_of_mem hlayout).isWord
      have hvalue := FieldLayout.noTriple_written hlayout hnode g
      show NoTriple (listed node.indent ((layout.key.toList ++ '=' :: layout.written node g) ::
        layouts.filterMap fun layout => layout.attribute? node g))
      rw [listed_cons]
      exact hkey.append (.inl (node.getLast?_beforeValue _))
        (hvalue.append (.inr (head?_listed _ _)) (ih hrest))

theorem noTriple_block (hnode : node.Clear) (g : TaskGraph) :
    NoTriple (Document.chars (node.block g)) := by
  rw [chars_block_head]
  exact (noTriple_head hnode.name).append (.inr (head?_listed _ _))
    (noTriple_listed hnode g fun _ h => h)

end Node

namespace TaskGraph

theorem noTriple_blocks {g : TaskGraph} {nodes : List Node} (hnodes : ∀ n ∈ nodes, n.Clear)
    {rest : List Char} (hrest : NoTriple rest) :
    NoTriple ((nodes.flatMap fun n => Document.chars (n.block g) ++ ['\n']) ++ rest) := by
  induction nodes with
  | nil => exact hrest
  | cons n nodes ih =>
    obtain ⟨hn, hothers⟩ := List.forall_mem_cons.1 hnodes
    have hend : NoTriple ['\n'] := noTriple_of_not_mem (by decide)
    have hblock := (Node.noTriple_block hn g).append (.inr (by decide)) hend
    rw [List.flatMap_cons, List.append_assoc]
    refine hblock.append (.inl ?_) (ih hothers)
    rw [List.getLast?_concat]
    decide

theorem WellFormed.noTriple_ended {g : TaskGraph} (h : g.WellFormed)
    (hlists : ∀ n ∈ g.written, n.ListsClear) : NoTriple (Document.ended g.bodyLines) := by
  rw [ended_bodyLines]
  refine noTriple_blocks (fun n hn => ?_) (noTriple_below h.legible_edge)
  have hmem : n ∈ g.nodes := (List.mem_filter.1 hn).1
  exact ⟨Source.isWord_of_isValid (h.validNames n hmem), h.isWord_incoming hmem, hlists n hn⟩

end TaskGraph
end JobPipeline
