import JobPipeline.Proofs.Field.Angles
import JobPipeline.Proofs.Source.Attributes

/-
What a field value is once it has been written.

Each style changes a value in its own way and then wraps it: `normal` is the value
without the wrapping, `wrapped` the wrapping.  The text of an attribute is the
wrapped normal form and nothing else, and reading it gives the normal form.  A
value in normal form is its own normal form, in the graph it was written from and
in any graph with no names beside those.
-/
namespace JobPipeline

open JobPipeline.Field (token)

/-- The value of a style as an attribute holds it. -/
def FieldStyle.wrapped : FieldStyle → List Char → List Char
  | .bare, value => if isBareLiteral value then value else FieldLayout.inQuotes value
  | .quoted, value | .body, value | .escaped, value => FieldLayout.inQuotes value
  | .array, value | .incomingArray, value => '<' :: (value ++ ['>'])

namespace FieldLayout

/-- The items of a list of incoming tasks: its own, or the tasks when it has none. -/
def incomingItems (node : Node) : List (List Char) → List (List Char)
  | [] => node.incoming.map fun name => token name.toList
  | items => items

/-- The value that is written for a field. -/
def normal (layout : FieldLayout) (node : Node) (g : TaskGraph) : List Char :=
  let raw := (layout.effective node).toList
  match layout.style with
  | .bare | .quoted => Text.trim raw
  | .body => Field.collapseBody raw
  | .escaped => raw
  | .array => Field.renderArray (g.elements raw)
  | .incomingArray => Field.renderArray (incomingItems node (g.elements raw))

theorem written_eq (layout : FieldLayout) (node : Node) (g : TaskGraph) :
    layout.written node g = layout.style.wrapped (layout.normal node g) := by
  rw [written, normal]
  cases layout.style with
  | incomingArray =>
    dsimp only
    cases g.elements (layout.effective node).toList <;> rfl
  | _ => rfl

/-! ## The catalog -/

/-- What the catalog keeps to, for any kind. -/
structure Regular (layout : FieldLayout) : Prop where
  isWord : Identifier.isWord layout.key.toList = true
  notType : layout.key ≠ "type"
  /-- A default is no blank, and stands for a value that is trimmed. -/
  default : layout.default ≠ "" → Text.blank layout.default = false ∧
    (layout.style = .bare ∨ layout.style = .quoted)
  omitted : layout.omitWhenEmpty = true →
    layout.style = .bare ∧ layout.default = "" ∧ layout.rule = .free
  rule : layout.rule ≠ .free → layout.style = .quoted ∧ layout.default = ""

instance (layout : FieldLayout) : Decidable layout.Regular :=
  decidable_of_iff
    (Identifier.isWord layout.key.toList = true ∧ layout.key ≠ "type" ∧
      (layout.default ≠ "" → Text.blank layout.default = false ∧
        (layout.style = .bare ∨ layout.style = .quoted)) ∧
      (layout.omitWhenEmpty = true →
        layout.style = .bare ∧ layout.default = "" ∧ layout.rule = .free) ∧
      (layout.rule ≠ .free → layout.style = .quoted ∧ layout.default = ""))
    ⟨fun h => ⟨h.1, h.2.1, h.2.2.1, h.2.2.2.1, h.2.2.2.2⟩,
      fun h => ⟨h.isWord, h.notType, h.default, h.omitted, h.rule⟩⟩

end FieldLayout

theorem TaskKind.regular_of_mem {kind : TaskKind} {layout : FieldLayout} (h : layout ∈ kind.fields) :
    layout.Regular := by
  have hall : ∀ kind ∈ TaskKind.all, ∀ layout ∈ kind.fields, layout.Regular := by decide
  exact hall kind (TaskKind.mem_all kind) layout h

theorem TaskKind.nodup_keys (kind : TaskKind) : (kind.fields.map FieldLayout.key).Nodup := by
  have hall : ∀ kind ∈ TaskKind.all, (kind.fields.map FieldLayout.key).Nodup := by decide
  exact hall kind (TaskKind.mem_all kind)

theorem TaskKind.ofText?_name (kind : TaskKind) : TaskKind.ofText? kind.name = some kind := by
  have hall : ∀ kind ∈ TaskKind.all, TaskKind.ofText? kind.name = some kind := by decide
  exact hall kind (TaskKind.mem_all kind)

namespace Field

theorem collapseFrom_collapseFrom (state : BodyState) (cs : List Char) :
    collapseFrom state (collapseFrom state cs) = collapseFrom state cs := by
  induction cs generalizing state with
  | nil => rfl
  | cons c cs ih =>
    rw [collapseFrom]
    split
    · next hkeep => rw [collapseFrom, if_pos hkeep, ih]
    · next hdrop =>
      -- What is dropped is a blank outside of literals, and no blank opens one.
      have hstate : state.next c = state := by
        cases state with
        | outside =>
          have hblank : Text.isBlank c = true := by simpa [BodyState.keeps] using hdrop
          have hquote : c ≠ '"' := by
            rintro rfl
            exact absurd hblank (by decide)
          exact if_neg hquote
        | inside => exact absurd rfl hdrop
        | escaped => exact absurd rfl hdrop
      rw [hstate, ih]

theorem collapseBody_collapseBody (cs : List Char) :
    collapseBody (collapseBody cs) = collapseBody cs := collapseFrom_collapseFrom .outside cs

end Field

/-- Every array field of a task can stand between angle brackets. -/
def Node.AnglesBalanced (n : Node) : Prop :=
  ∀ layout ∈ n.kind.fields, layout.style.isArray = true →
    anglesBalanced (Text.trim (n.field layout.key).toList) = true

instance (n : Node) : Decidable n.AnglesBalanced :=
  inferInstanceAs (Decidable (∀ layout ∈ _, _ → _))

namespace FieldLayout

/-! ## Where the default stands in -/

theorem effective_eq_field {layout : FieldLayout} (h : layout.default = "") (node : Node) :
    layout.effective node = node.field layout.key := by
  rw [effective, h]
  simp

theorem effective_eq_field_of_blank {layout : FieldLayout} {node : Node}
    (h : Text.blank (node.field layout.key) = false) :
    layout.effective node = node.field layout.key := by
  rw [effective, h]
  rfl

/-- Where there is a default, no blank is written. -/
theorem Regular.blank_effective {layout : FieldLayout} (h : layout.Regular)
    (hdefault : layout.default ≠ "") (node : Node) : Text.blank (layout.effective node) = false := by
  cases hblank : Text.blank (node.field layout.key) with
  | false => rw [effective_eq_field_of_blank hblank, hblank]
  | true =>
    have heffective : layout.effective node = layout.default := by
      rw [effective, hblank]
      simp [hdefault]
    rw [heffective]
    exact (h.default hdefault).1

theorem Regular.default_of_isArray {layout : FieldLayout} (h : layout.Regular)
    (harray : layout.style.isArray = true) : layout.default = "" := by
  refine Decidable.byContradiction fun hdefault => ?_
  rcases (h.default hdefault).2 with hstyle | hstyle
  · rw [hstyle] at harray
    cases harray
  · rw [hstyle] at harray
    cases harray

variable {layout : FieldLayout} {node node' : Node} {g g' : TaskGraph}

/-! ## Items -/

theorem incomingItems_of_ne_nil {items : List (List Char)} (h : items ≠ []) (node : Node) :
    incomingItems node items = items := by
  cases items with
  | nil => exact absurd rfl h
  | cons i items => rfl

theorem incomingItems_nil (node : Node) :
    incomingItems node [] = (node.incoming.map String.toList).map token := by
  rw [List.map_map]
  rfl

theorem words_of_isWord (hwords : ∀ name ∈ node.incoming, Identifier.isWord name.toList = true) :
    ∀ name ∈ node.incoming.map String.toList, Identifier.isWord name = true := by
  intro name hname
  obtain ⟨s, hs, rfl⟩ := List.mem_map.1 hname
  exact hwords s hs

/-- The items that are written for a list. -/
def items (layout : FieldLayout) (node : Node) (g : TaskGraph) : List (List Char) :=
  let elements := g.elements (node.field layout.key).toList
  if layout.style = .incomingArray then incomingItems node elements else elements

theorem normal_of_isArray (h : layout.Regular) (harray : layout.style.isArray = true) :
    layout.normal node g = Field.renderArray (layout.items node g) := by
  rw [normal, items, effective_eq_field (h.default_of_isArray harray)]
  cases hstyle : layout.style with
  | array => rfl
  | incomingArray => rfl
  | _ =>
    rw [hstyle] at harray
    cases harray

theorem items_eq (layout : FieldLayout) (node : Node) (g : TaskGraph) :
    layout.items node g = g.elements (node.field layout.key).toList ∨
      layout.items node g = (node.incoming.map String.toList).map token := by
  rw [items]
  by_cases hstyle : layout.style = .incomingArray
  · rw [if_pos hstyle]
    by_cases hnil : g.elements (node.field layout.key).toList = []
    · rw [hnil, incomingItems_nil]
      exact .inr rfl
    · rw [incomingItems_of_ne_nil hnil]
      exact .inl rfl
  · rw [if_neg hstyle]
    exact .inl rfl

theorem items_of_ne_nil (h : Field.arrayItems (node.field layout.key).toList ≠ []) :
    layout.items node g = g.elements (node.field layout.key).toList := by
  have hne : g.elements (node.field layout.key).toList ≠ [] := by
    rw [TaskGraph.elements]
    simpa using h
  rw [items, incomingItems_of_ne_nil hne, ite_self]

/-- The items that are written are read as they are, here and in a graph without
new names. -/
theorem elements_incomingItems
    (hwords : ∀ name ∈ node.incoming, Identifier.isWord name.toList = true)
    (hnames : ∀ name, g'.hasName name = true → g.hasName name = true) (raw : List Char) :
    g'.elements (Field.renderArray (incomingItems node (g.elements raw))) =
      incomingItems node (g.elements raw) := by
  by_cases hnil : g.elements raw = []
  · rw [hnil, incomingItems_nil]
    exact g'.elements_tokens (words_of_isWord hwords)
  · rw [incomingItems_of_ne_nil hnil]
    exact TaskGraph.elements_renderArray hnames raw

/-- A list in normal form has the angle brackets of the field. -/
theorem angles_normal (h : layout.Regular) (harray : layout.style.isArray = true)
    (hwords : ∀ name ∈ node.incoming, Identifier.isWord name.toList = true) (g : TaskGraph) :
    Field.angles (layout.normal node g) = Field.angles (node.field layout.key).toList := by
  rw [normal, effective_eq_field (h.default_of_isArray harray)]
  cases hstyle : layout.style with
  | array => exact Field.angles_elements g _
  | incomingArray =>
    dsimp only
    have hsame := Field.angles_elements g (node.field layout.key).toList
    by_cases hnil : g.elements (node.field layout.key).toList = []
    · rw [hnil] at hsame
      rw [hnil, incomingItems_nil, Field.angles_tokens (words_of_isWord hwords), ← hsame]
      rfl
    · rw [incomingItems_of_ne_nil hnil, hsame]
  | _ => exact absurd (hstyle ▸ harray) (by decide)

/-! ## Reading back -/

/-- What is written for a field is a text for its normal form. -/
theorem valueText_written (h : layout.Regular)
    (hwords : ∀ name ∈ node.incoming, Identifier.isWord name.toList = true)
    (hbalanced : layout.style.isArray = true →
      anglesBalanced (Text.trim (node.field layout.key).toList) = true) (g : TaskGraph) :
    Source.ValueText (layout.normal node g) (layout.written node g) := by
  rw [written_eq]
  have harray : layout.style.isArray = true → anglesBalanced (layout.normal node g) = true := by
    intro harray
    rw [← hbalanced harray]
    apply Field.anglesBalanced_congr
    rw [angles_normal h harray hwords, Field.angles_trim]
  cases hstyle : layout.style with
  | bare =>
    rw [FieldStyle.wrapped]
    split
    · next hbare => exact .bare hbare
    · exact .quoted _
  | array =>
    rw [hstyle] at harray
    exact .angles (harray rfl)
  | incomingArray =>
    rw [hstyle] at harray
    exact .angles (harray rfl)
  | _ => exact .quoted _

theorem effective_of_field (h : layout.Regular)
    (hfield : node'.field layout.key = String.ofList (layout.normal node g)) :
    (layout.effective node').toList = layout.normal node g := by
  by_cases hdefault : layout.default = ""
  · rw [effective_eq_field hdefault, hfield, String.toList_ofList]
  · have htrim : layout.normal node g = Text.trim (layout.effective node).toList := by
      rw [normal]
      rcases (h.default hdefault).2 with hstyle | hstyle <;> rw [hstyle]
    have hblank : Text.blank (node'.field layout.key) = false := by
      have hnot := h.blank_effective hdefault node
      rw [Text.blank, Bool.eq_false_iff, ne_eq, ← Text.trim_eq_nil_iff] at hnot ⊢
      rwa [hfield, htrim, String.toList_ofList, Text.trim_trim]
    rw [effective_eq_field_of_blank hblank, hfield, String.toList_ofList]

/-- A field in normal form is in its own normal form. -/
theorem normal_of_field (h : layout.Regular)
    (hwords : ∀ name ∈ node.incoming, Identifier.isWord name.toList = true)
    (hfield : node'.field layout.key = String.ofList (layout.normal node g))
    (hnames : ∀ name, g'.hasName name = true → g.hasName name = true)
    (hincoming : node.incoming = [] → node'.incoming = []) :
    layout.normal node' g' = layout.normal node g := by
  have heffective := effective_of_field h hfield
  rw [normal, heffective, normal]
  cases layout.style with
  | bare | quoted => exact Text.trim_trim _
  | body => exact Field.collapseBody_collapseBody _
  | escaped => rfl
  | array =>
    dsimp only
    rw [TaskGraph.elements_renderArray hnames]
  | incomingArray =>
    dsimp only
    rw [elements_incomingItems hwords hnames]
    by_cases hnil : incomingItems node (g.elements (layout.effective node).toList) = []
    · -- An empty list is written only where no task leads in.
      have hitems : g.elements (layout.effective node).toList = [] := by
        refine Decidable.byContradiction fun hne => hne ?_
        rwa [incomingItems_of_ne_nil hne] at hnil
      have hnone : node.incoming = [] := by
        rw [hitems, incomingItems] at hnil
        exact List.map_eq_nil_iff.1 hnil
      rw [hnil, incomingItems, hincoming hnone]
      rfl
    · rw [incomingItems_of_ne_nil hnil]

end FieldLayout
end JobPipeline
