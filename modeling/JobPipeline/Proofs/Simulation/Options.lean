import JobPipeline.Json.Record
import JobPipeline.Proofs.Document.RoundTrip
import JobPipeline.Proofs.Simulation.Values

/-
The options of a task as it is simulated, and as its text has them.

The simulation resolves a field of the task as it stands; the compiled text holds the
default for a blank, tokens for the names in a list and the incoming tasks for an
empty one.  The task that is read back is therefore given the same options only where
none of this has changed the field.
-/
namespace JobPipeline

open JobPipeline.Field (token Unmarked)

/-! ## Options -/

theorem keys_filterMap {α β : Type} (drop : String → Bool) (f : α → β) (entries : List (String × α)) :
    (entries.filterMap fun e => if drop e.1 then none else some (e.1, f e.2)).map Prod.fst =
      (entries.map Prod.fst).filter fun key => !drop key := by
  induction entries with
  | nil => rfl
  | cons e entries ih =>
    rw [List.filterMap_cons, List.map_cons, List.filter_cons]
    cases hdrop : drop e.1 with
    | true => simpa using ih
    | false => simpa using ih

/-- The options of a task are those of its kind, and then all others. -/
theorem Node.find?_options (n : Node) (vars : Vars) {layout : FieldLayout}
    (h : layout ∈ n.kind.fields) :
    (n.options vars).find? layout.key = some (vars.resolveField layout.style (n.optionText layout)) := by
  let option (layout : FieldLayout) := (layout.key, vars.resolveField layout.style (n.optionText layout))
  let known := n.kind.fields.map option
  have hknown : known.map Prod.fst = n.kind.fields.map FieldLayout.key := List.map_map
  have hothers := keys_filterMap (fun key => known.any (·.1 = key)) (vars.resolveField .quoted)
    n.fields.entries
  refine Dict.find?_ofList_of_mem ?_ (List.mem_append_left _ (List.mem_map_of_mem (f := option) h))
  show ((known ++ n.fields.entries.filterMap fun e =>
    if known.any (·.1 = e.1) then none else some (e.1, vars.resolveField .quoted e.2)).map Prod.fst).Nodup
  rw [List.map_append, hothers, hknown]
  refine List.nodup_append'.2 ⟨n.kind.nodup_keys, n.fields.nodup_keys.filter _, ?_⟩
  intro key hkey hother
  rw [← hknown] at hkey
  obtain ⟨pair, hpair, rfl⟩ := List.mem_map.1 hkey
  have hany : (known.any fun e => e.1 = pair.1) = true :=
    List.any_eq_true.2 ⟨pair, hpair, decide_eq_true rfl⟩
  have hnot := (List.mem_filter.1 hother).2
  rw [hany] at hnot
  cases hnot

namespace Vars

variable {text : String} {style : FieldStyle}

theorem resolveField_array (h : style.isArray = true) (hmarks : Unmarked text.toList) (vars : Vars) :
    vars.resolveField style text = .array ((Field.arrayItems text.toList).map vars.resolveItem) := by
  cases style with
  | array | incomingArray => rw [resolveField, hmarks.unhighlight]
  | _ => cases h

/-- A blank text of one of the plain styles is its own value. -/
theorem resolveField_blank (h : style = .bare ∨ style = .quoted) (hblank : Text.blank text = true)
    (vars : Vars) : vars.resolveField style text = .string text := by
  have hnot : ∀ c ∈ text.toList, Text.isBlank c = true := List.all_eq_true.1 hblank
  have hvalue : vars.resolveText text = .string text :=
    resolveText_plain (Field.unmarked_of_not_mem fun hmem => absurd (hnot _ hmem) (by decide))
      (fun hmem => absurd (hnot _ hmem) (by decide)) vars
  rcases h with rfl | rfl
  · rw [resolveField, hvalue, Json.literal, Json.valueOf?_of_blank hblank]
    rfl
  · exact hvalue

end Vars

/-! ## Lists -/

namespace FieldLayout

variable {layout : FieldLayout} {n n' : Node} {g : TaskGraph}

/-- The items that a list is simulated with. -/
def simulatedItems (layout : FieldLayout) (n : Node) : List (List Char) :=
  if layout.style = .incomingArray ∧ Text.blank (n.field layout.key) then
    (n.incoming.map String.toList).map token
  else Field.arrayItems (n.field layout.key).toList

/-- A list is simulated as it is compiled: no item is the name of a task, and a list
without items that is not blank has no tasks to stand in for them. -/
structure Agrees (layout : FieldLayout) (n : Node) (g : TaskGraph) : Prop where
  names : ∀ item ∈ Field.arrayItems (n.field layout.key).toList, g.hasName (String.ofList item) = false
  incoming : layout.style = .incomingArray → Field.arrayItems (n.field layout.key).toList = [] →
    Text.blank (n.field layout.key) = false → n.incoming = []

theorem tidy_items (hwords : ∀ name ∈ n.incoming, Identifier.isWord name.toList = true) :
    Field.Tidy (layout.items n g) := by
  rcases layout.items_eq n g with heq | heq <;> rw [heq]
  · exact g.tidy_elements _
  · exact Field.tidy_tokens (words_of_isWord hwords)

theorem unmarked_items (hwords : ∀ name ∈ n.incoming, Identifier.isWord name.toList = true)
    (hmarks : Unmarked (n.field layout.key).toList) : ∀ i ∈ layout.items n g, Unmarked i := by
  intro i hi
  rcases layout.items_eq n g with heq | heq <;> rw [heq] at hi
  · obtain ⟨item, hitem, rfl⟩ := List.mem_map.1 hi
    rcases g.element_eq item with heq | ⟨heq, hvalid, _⟩ <;> rw [heq]
    · exact hmarks.of_subtext (Field.infix_of_mem_arrayItems hitem)
    · exact Field.unmarked_of_not_mem
        (Field.angle_not_mem_token (Field.isWord_of_isValid_ofList hvalid))
  · obtain ⟨name, hname, rfl⟩ := List.mem_map.1 hi
    exact Field.unmarked_of_not_mem (Field.angle_not_mem_token (words_of_isWord hwords name hname))

/-- The task that is read back is given the items that were written. -/
theorem resolveField_of_field (h : layout.Regular) (harray : layout.style.isArray = true)
    (hwords : ∀ name ∈ n.incoming, Identifier.isWord name.toList = true)
    (hmarks : Unmarked (n.field layout.key).toList)
    (hfield : n'.field layout.key = String.ofList (layout.normal n g)) (vars : Vars) :
    vars.resolveField layout.style (n'.optionText layout) =
      .array ((layout.items n g).map vars.resolveItem) := by
  rw [normal_of_isArray h harray] at hfield
  have hblank : Text.blank (n'.field layout.key) = false := by
    rw [hfield, Text.blank, String.toList_ofList, Field.renderArray]
    split <;> rfl
  have htext : n'.optionText layout = n'.field layout.key := by
    rw [Node.optionText, hblank]
    simp
  have hunmarked := Field.unmarked_renderArray (unmarked_items (g := g) hwords hmarks)
  rw [htext, hfield, Vars.resolveField_array harray (by rwa [String.toList_ofList]),
    String.toList_ofList, (tidy_items hwords).arrayItems_renderArray]

theorem resolveField_simulated (harray : layout.style.isArray = true)
    (hwords : ∀ name ∈ n.incoming, Identifier.isWord name.toList = true)
    (hmarks : Unmarked (n.field layout.key).toList) (vars : Vars) :
    vars.resolveField layout.style (n.optionText layout) =
      .array ((layout.simulatedItems n).map vars.resolveItem) := by
  rw [Node.optionText, simulatedItems]
  by_cases hempty : layout.style = .incomingArray ∧ Text.blank (n.field layout.key)
  · have htext : (String.intercalate "," (n.incoming.map fun name => "$(" ++ name ++ ")")).toList =
        Text.joinWith [','] ((n.incoming.map String.toList).map token) := by
      rw [String.toList_intercalate, Text.joinWith_eq_intercalate, List.map_map, List.map_map]
      congr 1
      refine List.map_congr_left fun name _ => ?_
      simp [token]
    have hwords' := words_of_isWord hwords
    rw [if_pos hempty, if_pos hempty, Vars.resolveField_array harray, htext,
      Field.arrayItems_tokens hwords']
    rw [htext]
    exact Field.unmarked_joinWith_tokens hwords'
  · rw [if_neg hempty, if_neg hempty, Vars.resolveField_array harray hmarks]

/-- The incoming tasks stand in for a blank list on both sides. -/
theorem simulatedItems_of_blank (hstyle : layout.style = .incomingArray)
    (hblank : Text.blank (n.field layout.key) = true) :
    layout.simulatedItems n = layout.items n g ∧ layout.Agrees n g := by
  have hnone : Field.arrayItems (n.field layout.key).toList = [] := Field.arrayItems_of_blank hblank
  refine ⟨?_, fun item hitem => ?_, fun _ _ hnot => ?_⟩
  · rw [simulatedItems, if_pos ⟨hstyle, hblank⟩, items, if_pos hstyle, TaskGraph.elements, hnone]
    exact (incomingItems_nil n).symm
  · rw [hnone] at hitem
    cases hitem
  · rw [hblank] at hnot
    cases hnot

theorem Agrees.items (h : layout.Agrees n g)
    (hgiven : ¬(layout.style = .incomingArray ∧ Text.blank (n.field layout.key))) :
    layout.items n g = Field.arrayItems (n.field layout.key).toList := by
  have hplain : g.elements (n.field layout.key).toList =
      Field.arrayItems (n.field layout.key).toList := by
    refine (List.map_congr_left fun item hitem => ?_).trans (List.map_id _)
    rcases g.element_eq item with heq | ⟨_, _, hname⟩
    · exact heq
    · rw [h.names item hitem] at hname
      cases hname
  by_cases hnone : Field.arrayItems (n.field layout.key).toList = []
  · rw [FieldLayout.items, hplain, hnone]
    by_cases hstyle : layout.style = .incomingArray
    · have hblank : Text.blank (n.field layout.key) = false := by simpa [hstyle] using hgiven
      rw [incomingItems, h.incoming hstyle hnone hblank]
      exact ite_self []
    · exact if_neg hstyle
  · rw [items_of_ne_nil hnone, hplain]

/-- A list that resolves like the written one, whatever the tasks before have given, agrees
with it. -/
theorem agrees_of_resolveItem (h : g.WellFormed)
    (hsame : ∀ vars : Vars, (Field.arrayItems (n.field layout.key).toList).map vars.resolveItem =
      (layout.items n g).map vars.resolveItem) : layout.Agrees n g where
  names := by
    intro item hitem
    rw [Bool.eq_false_iff]
    intro hname
    have hvalid := h.isValid_of_hasName hname
    have helement : g.element item = token item := by
      rw [TaskGraph.element, hvalid, hname]
      rfl
    obtain ⟨vars, hvars⟩ := Vars.exists_resolveItem_ne (Field.isWord_of_isValid_ofList hvalid)
    have hmap := hsame vars
    rw [items_of_ne_nil (List.ne_nil_of_mem hitem), TaskGraph.elements, List.map_map] at hmap
    have hpoint := List.map_inj_left.1 hmap item hitem
    rw [Function.comp_apply, helement] at hpoint
    exact hvars hpoint
  incoming := by
    intro hstyle hnone _
    have hmap := hsame Dict.empty
    rw [hnone, FieldLayout.items, if_pos hstyle, TaskGraph.elements, hnone] at hmap
    simpa [incomingItems] using hmap.symm

theorem agrees_iff (h : g.WellFormed) :
    (∀ vars : Vars, (layout.simulatedItems n).map vars.resolveItem =
      (layout.items n g).map vars.resolveItem) ↔ layout.Agrees n g := by
  by_cases hempty : layout.style = .incomingArray ∧ Text.blank (n.field layout.key)
  · obtain ⟨hitems, hagrees⟩ := simulatedItems_of_blank (g := g) hempty.1 hempty.2
    rw [hitems]
    exact ⟨fun _ => hagrees, fun _ _ => rfl⟩
  · rw [simulatedItems, if_neg hempty]
    refine ⟨agrees_of_resolveItem h, fun hagrees vars => ?_⟩
    rw [hagrees.items hempty]

/-! ## Defaults -/

/-- A default is a text without blanks around it, tokens or marks.  If it is JSON, it is
no other text. -/
structure PlainDefault (layout : FieldLayout) : Prop where
  trimmed : Text.trim layout.default.toList = layout.default.toList
  noToken : '$' ∉ layout.default.toList
  noMark : '<' ∉ layout.default.toList
  literal : (Json.literal (.string layout.default)).string? = some layout.default ∨
    (Json.literal (.string layout.default)).string? = none

theorem plainDefault_of_mem {kind : TaskKind} (h : layout ∈ kind.fields)
    (hdefault : layout.default ≠ "") : layout.PlainDefault := by
  have hall : ∀ kind ∈ TaskKind.all, ∀ layout ∈ kind.fields, layout.default ≠ "" →
      Text.trim layout.default.toList = layout.default.toList ∧ '$' ∉ layout.default.toList ∧
        '<' ∉ layout.default.toList ∧
        ((Json.literal (.string layout.default)).string? = some layout.default ∨
          (Json.literal (.string layout.default)).string? = none) := by decide +kernel
  obtain ⟨htrimmed, htoken, hmark, hliteral⟩ := hall kind (TaskKind.mem_all kind) layout h hdefault
  exact ⟨htrimmed, htoken, hmark, hliteral⟩

/-- The default that is compiled for a blank is another value than the blank. -/
theorem resolveField_default_ne (hlayout : layout ∈ n.kind.fields) (hdefault : layout.default ≠ "")
    (hblank : Text.blank (n.field layout.key) = true)
    (hfield : n'.field layout.key = String.ofList (layout.normal n g)) (vars : Vars) :
    vars.resolveField layout.style (n.optionText layout) ≠
      vars.resolveField layout.style (n'.optionText layout) := by
  have h := TaskKind.regular_of_mem hlayout
  have hplain := plainDefault_of_mem hlayout hdefault
  obtain ⟨hfull, hstyle⟩ := h.default hdefault
  have hlist : layout.style ≠ .incomingArray := by rcases hstyle with h | h <;> rw [h] <;> decide
  have htext : ∀ m : Node, m.optionText layout = m.field layout.key := fun m => by
    simp [Node.optionText, hlist]
  have heffective : layout.effective n = layout.default := by
    rw [effective, hblank]
    simp [hdefault]
  have hnormal : n'.field layout.key = layout.default := by
    rw [hfield, normal, heffective]
    rcases hstyle with h | h <;> rw [h] <;> dsimp only <;> rw [hplain.trimmed, String.ofList_toList]
  have hvalue : vars.resolveText layout.default = .string layout.default :=
    Vars.resolveText_plain (Field.unmarked_of_not_mem hplain.noMark) hplain.noToken vars
  have hne : n.field layout.key ≠ layout.default := fun heq => by
    rw [heq, hfull] at hblank
    cases hblank
  rw [htext, htext, Vars.resolveField_blank hstyle hblank, hnormal]
  intro hsame
  rcases hstyle with hstyle | hstyle <;> rw [hstyle, Vars.resolveField, hvalue] at hsame
  · rcases hplain.literal with hstring | hstring <;> rw [← hsame] at hstring
    · exact hne (Option.some.inj hstring)
    · cases hstring
  · exact hne (Json.string.inj hsame)

end FieldLayout

namespace TaskGraph

/-- A task is simulated with the options of its compiled text in the list fields that
agree with it, and with other options where a default stands in for a blank. -/
theorem options_ofSource {g : TaskGraph} (hg : g.Built)
    (hbalanced : ∀ n ∈ g.nodes, n.AnglesBalanced) :
    ∃ g', ofSource g.source = .ok g' ∧ ∀ n ∈ g.written, ∃ n' ∈ g'.nodes, n'.name = n.name ∧
      ∀ layout ∈ n.kind.fields,
        (layout.style.isArray = true → Unmarked (n.field layout.key).toList →
          ((∀ inputs vars, (n.request inputs vars).options.find? layout.key =
              (n'.request inputs vars).options.find? layout.key) ↔ layout.Agrees n g)) ∧
        (layout.default ≠ "" → Text.blank (n.field layout.key) = true → ∀ inputs vars,
          (n.request inputs vars).options.find? layout.key ≠
            (n'.request inputs vars).options.find? layout.key) := by
  have h := hg.sound.wellFormed
  obtain ⟨g', hsource, hrewrites⟩ := hg.sound.rewrites fun n hn => hbalanced n (List.mem_filter.1 hn).1
  refine ⟨g', hsource, fun n hn => ?_⟩
  obtain ⟨n', hn', hrewritten⟩ := forall₂_left hrewrites.nodes hn
  have hwords := h.isWord_incoming (List.mem_filter.1 hn).1
  refine ⟨n', hn', hrewritten.name, fun layout hlayout => ?_⟩
  have hregular := TaskKind.regular_of_mem hlayout
  have hfield := hrewritten.fields layout hlayout
  have hlayout' : layout ∈ n'.kind.fields := by
    rw [hrewritten.kind]
    exact hlayout
  have hoption : ∀ inputs vars, (n.request inputs vars).options.find? layout.key =
      some (vars.resolveField layout.style (n.optionText layout)) :=
    fun _ vars => n.find?_options vars hlayout
  have hoption' : ∀ inputs vars, (n'.request inputs vars).options.find? layout.key =
      some (vars.resolveField layout.style (n'.optionText layout)) :=
    fun _ vars => n'.find?_options vars hlayout'
  refine ⟨fun harray hmarks => ?_, fun hdefault hblank inputs vars => ?_⟩
  · rw [← FieldLayout.agrees_iff h]
    simp only [hoption, hoption', Option.some.injEq,
      FieldLayout.resolveField_simulated harray hwords hmarks,
      FieldLayout.resolveField_of_field hregular harray hwords hmarks hfield, Json.array.injEq]
    exact ⟨fun hall vars => hall [] vars, fun hall _ vars => hall vars⟩
  · rw [hoption, hoption', ne_eq, Option.some.injEq]
    exact FieldLayout.resolveField_default_ne hlayout hdefault hblank hfield vars

/-- The sum is simulated with a name, and compiled with the token of the task. -/
theorem options_ofSource_sumGraph :
    sumGraph.Built ∧ (∀ n ∈ sumGraph.nodes, n.AnglesBalanced) ∧
      ∃ g', ofSource sumGraph.source = .ok g' ∧ ∃ n ∈ sumGraph.written, ∃ n' ∈ g'.nodes,
        n.name = "total" ∧ n'.name = "total" ∧
          ∃ inputs vars, (n.request inputs vars).options.find? "values" ≠
            (n'.request inputs vars).options.find? "values" := by
  have hbuilt : sumGraph.Built := ⟨_, rfl⟩
  have hbalanced : ∀ n ∈ sumGraph.nodes, n.AnglesBalanced := by decide
  refine ⟨hbuilt, hbalanced, ?_⟩
  obtain ⟨g', hsource, htasks⟩ := options_ofSource hbuilt hbalanced
  have htotal : ∃ n ∈ sumGraph.written, n.name = "total" ∧ ∃ layout ∈ n.kind.fields,
      layout.key = "values" ∧ layout.style.isArray = true ∧ Unmarked (n.field layout.key).toList ∧
        ∃ item ∈ Field.arrayItems (n.field layout.key).toList,
          sumGraph.hasName (String.ofList item) = true := by decide +kernel
  obtain ⟨n, hn, hname, layout, hlayout, hkey, harray, hmarks, item, hitem, hknown⟩ := htotal
  obtain ⟨n', hn', hname', hfields⟩ := htasks n hn
  refine ⟨g', hsource, n, hn, n', hn', hname, hname'.trans hname, ?_⟩
  have hdiffer : ¬layout.Agrees n sumGraph := fun hagrees => by
    rw [hagrees.names item hitem] at hknown
    cases hknown
  rw [← (hfields layout hlayout).1 harray hmarks, hkey] at hdiffer
  simpa using hdiffer

end TaskGraph
end JobPipeline
