import JobPipeline.Proofs.Document.RoundTrip
import JobPipeline.Proofs.Graph.Retargeting

/-
What is written after a rename that tokens follow.

A field is written with the same items and the same omissions, and with its tokens
following.  The tokens that are only formed as it is written are another matter: a bare
name in a list is no token, so it stays behind.
-/
namespace JobPipeline

open JobPipeline.Field (token tokenNames)
open Piece (spelled tokens Whole whole_pieces)

variable {old new : String} {g g' : TaskGraph} {n n' : Node} {layout : FieldLayout}

namespace Field

theorem all_isBlank_spelled_pieces (f : Reference → Reference) (cs : List Char) :
    (spelled f (pieces cs)).all Text.isBlank = cs.all Text.isBlank := by
  rw [all_isBlank_spelled f id, Piece.spelled_pieces]

theorem angles_text {r : Reference} (h : r.Readable) : angles r.text = [] :=
  angles_of_class h.isTextChar (by decide)

/-- No token has an angle bracket. -/
theorem angles_spelled {f : Reference → Reference} (hf : Piece.Keeps f) {ps : List Piece}
    (hps : Whole ps) : angles (spelled f ps) = angles (spelled id ps) := by
  induction ps with
  | nil => rfl
  | cons p ps ih =>
    cases p with
    | plain c =>
      have hrest := ih hps
      rw [Piece.spelled_plain, Piece.spelled_plain, angles, List.filter_cons]
      rw [angles] at hrest
      rw [hrest, angles, angles, List.filter_cons]
    | token r =>
      obtain ⟨hr, hps⟩ := List.forall_mem_cons.1 hps
      rw [Piece.spelled_token, Piece.spelled_token, angles_append, angles_append, ih hps,
        angles_text (hf r hr), angles_text (Piece.keeps_id r hr)]

end Field

namespace Node.Follows

theorem toList_field (h : Node.Follows old new n n') (key : String) :
    (n'.field key).toList = spelled (Reference.retargeted old new) (pieces (n.field key).toList) := by
  rw [h.field, Field.renameReferences_eq]

theorem blank_field (h : Node.Follows old new n n') (key : String) :
    Text.blank (n'.field key) = Text.blank (n.field key) := by
  rw [Text.blank, Text.blank, h.toList_field, Field.all_isBlank_spelled_pieces]

theorem blank_effective (h : Node.Follows old new n n') (layout : FieldLayout) :
    Text.blank (layout.effective n') = Text.blank (layout.effective n) := by
  rw [FieldLayout.effective, FieldLayout.effective, h.blank_field]
  split
  · rfl
  · exact h.blank_field layout.key

theorem anglesBalanced (h : Node.Follows old new n n') (hnew : Identifier.isWord new.toList = true)
    (hbalanced : n.AnglesBalanced) : n'.AnglesBalanced := by
  intro layout hlayout harray
  rw [h.kind] at hlayout
  rw [← hbalanced layout hlayout harray]
  apply Field.anglesBalanced_congr
  rw [Field.angles_trim, Field.angles_trim, h.toList_field,
    Field.angles_spelled (Reference.keeps_retargeted old hnew) (whole_pieces _), Piece.spelled_pieces]

theorem isWord_incoming (h : Node.Follows old new n n') (hnew : Identifier.isWord new.toList = true)
    (hwords : ∀ name ∈ n.incoming, Identifier.isWord name.toList = true) :
    ∀ name ∈ n'.incoming, Identifier.isWord name.toList = true := by
  intro name hname
  rw [h.incoming] at hname
  obtain ⟨other, hother, rfl⟩ := List.mem_map.1 hname
  rw [followName]
  split
  · exact hnew
  · exact hwords other hother

end Node.Follows

/-! ## Items -/

/-- The names of a graph and of the graph after a rename. -/
structure TaskGraph.NamesFollow (old new : String) (g g' : TaskGraph) : Prop where
  isWord : Identifier.isWord new.toList = true
  unused : g.hasName new = false
  others : ∀ name, name ≠ new → g'.hasName name = (g.hasName name && !decide (name = old))

theorem exists_plain_or_dollar_mem (ps : List Piece) :
    (∃ cs : List Char, ps = cs.map .plain) ∨ ∀ f, '$' ∈ spelled f ps := by
  induction ps with
  | nil => exact .inl ⟨[], rfl⟩
  | cons p ps ih =>
    cases p with
    | plain c =>
      rcases ih with ⟨cs, rfl⟩ | hdollar
      · exact .inl ⟨c :: cs, rfl⟩
      · exact .inr fun f => List.mem_cons_of_mem c (hdollar f)
    | token r => exact .inr fun f => List.mem_cons_self

namespace TaskGraph

theorem element_of_dollar_mem (g : TaskGraph) {item : List Char} (h : '$' ∈ item) :
    g.element item = item := by
  rcases g.element_eq item with heq | ⟨_, hvalid, _⟩
  · exact heq
  · exact absurd (Field.isRest_of_isWord (Field.isWord_of_isValid_ofList hvalid) _ h) (by decide)

namespace NamesFollow

/-- The items of a list before and after a rename are two spellings of the same pieces. -/
theorem exists_items (h : NamesFollow old new g g') (hn : Node.Follows old new n n') (key : String) :
    ∃ qs : List (List Piece),
      qs.flatMap tokens = Field.references (n.field key).toList ∧ (∀ q ∈ qs, Whole q) ∧
      Field.arrayItems (n.field key).toList = qs.map (spelled id) ∧
      Field.arrayItems (n'.field key).toList = qs.map (spelled (Reference.retargeted old new)) := by
  obtain ⟨qs, htokens, hitems⟩ := Field.exists_arrayItems (whole_pieces (n.field key).toList)
  have hbefore := hitems id Piece.keeps_id
  have hafter := hitems _ (Reference.keeps_retargeted old h.isWord)
  rw [Piece.spelled_pieces] at hbefore
  rw [← hn.toList_field] at hafter
  have hqs : ∀ q ∈ qs, Whole q := fun q hq => (whole_pieces _).of_subset fun r hr =>
    htokens ▸ List.mem_flatMap.2 ⟨q, hq, hr⟩
  exact ⟨qs, htokens, hqs, hbefore, hafter⟩

theorem moved_element (h : NamesFollow old new g g') {q : List Piece} (hq : Whole q)
    (habsent : spelled id q ≠ new.toList) :
    Moved old new ((tokens q).map Reference.id) (tokenNames (g.element (spelled id q)))
      (tokenNames (g'.element (spelled (Reference.retargeted old new) q))) := by
  rcases exists_plain_or_dollar_mem q with ⟨cs, rfl⟩ | hdollar
  · rw [Piece.spelled_map_plain] at habsent
    have hne : String.ofList cs ≠ new := fun heq => habsent (by rw [← heq, String.toList_ofList])
    have hothers := h.others _ hne
    rw [Piece.tokens_map_plain, Piece.spelled_map_plain, Piece.spelled_map_plain, element, element,
      hothers]
    cases hname : Identifier.isValid (String.ofList cs) && g.hasName (String.ofList cs) with
    | false =>
      rw [← Bool.and_assoc, hname, Bool.false_and]
      exact .of_formed _
    | true =>
      rw [← Bool.and_assoc, hname, Bool.true_and]
      by_cases hold : String.ofList cs = old
      · -- The item was the old name, and is no name any more.
        have hword := Field.isWord_of_isValid_ofList (Bool.and_eq_true_iff.1 hname).1
        have hnone : tokenNames cs = [] :=
          Field.tokenNames_eq_nil fun hmem => absurd (Field.isRest_of_isWord hword _ hmem) (by decide)
        have htoken : tokenNames ('$' :: '(' :: cs ++ [')']) = [old] := by
          rw [← hold]
          exact Field.tokenNames_token hword
        rw [decide_eq_true hold, if_pos rfl, htoken, Bool.not_true, if_neg Bool.false_ne_true, hnone]
        exact .lost .nil
      · rw [decide_eq_false hold, Bool.not_false, if_pos rfl]
        exact .of_formed _
  · rw [element_of_dollar_mem g (hdollar _), element_of_dollar_mem g' (hdollar _)]
    exact .of_pieces old h.isWord hq

theorem moved_items (h : NamesFollow old new g g') (qs : List (List Piece)) (hqs : ∀ q ∈ qs, Whole q)
    (habsent : ∀ q ∈ qs, spelled id q ≠ new.toList) :
    Moved old new ((qs.flatMap tokens).map Reference.id)
      (((qs.map (spelled id)).map g.element).flatMap tokenNames)
      (((qs.map (spelled (Reference.retargeted old new))).map g'.element).flatMap tokenNames) := by
  induction qs with
  | nil => exact .nil
  | cons q qs ih =>
    obtain ⟨hq, hqs⟩ := List.forall_mem_cons.1 hqs
    obtain ⟨hfirst, habsent⟩ := List.forall_mem_cons.1 habsent
    rw [List.flatMap_cons, List.map_append]
    exact (h.moved_element hq hfirst).append (ih hqs habsent)

end NamesFollow

theorem moved_names (names : List String) : Moved old new [] names (names.map (followName old new)) := by
  induction names with
  | nil => exact .nil
  | cons name names ih =>
    by_cases hname : name = old
    · subst hname
      rw [List.map_cons, followName, if_pos rfl]
      exact .fed ih
    · rw [List.map_cons, followName, if_neg hname]
      exact .formed name ih

end TaskGraph

theorem Field.tokenNames_incoming {names : List String}
    (hwords : ∀ name ∈ names, Identifier.isWord name.toList = true) :
    ((names.map String.toList).map token).flatMap tokenNames = names := by
  induction names with
  | nil => rfl
  | cons name names ih =>
    obtain ⟨hname, hnames⟩ := List.forall_mem_cons.1 hwords
    rw [List.map_cons, List.map_cons, List.flatMap_cons, tokenNames_token hname, ih hnames,
      String.ofList_toList]
    rfl

/-! ## Fields -/

namespace FieldLayout

/-- The names that the tokens of a field give. -/
def ownNames (layout : FieldLayout) (n : Node) : List String :=
  (Field.references (n.field layout.key).toList).map Reference.id

/-- A field is written with no other token of a name than its own. -/
def Explicit (layout : FieldLayout) (n : Node) (g : TaskGraph) (name : String) : Prop :=
  (tokenNames (layout.normal n g)).count name = (layout.ownNames n).count name

instance (layout : FieldLayout) (n : Node) (g : TaskGraph) (name : String) :
    Decidable (layout.Explicit n g name) := inferInstanceAs (Decidable (_ = _))

theorem Explicit.not_mem {name : String} (h : layout.Explicit n g name)
    (habsent : ¬name.toList <:+: (n.field layout.key).toList) :
    name ∉ tokenNames (layout.normal n g) := by
  have hown : (layout.ownNames n).count name = 0 :=
    List.count_eq_zero.2 (Field.not_mem_references habsent)
  rw [Explicit, hown] at h
  exact List.count_eq_zero.1 h

/-- The tokens of a list before and after a rename. -/
theorem moved_list (h : g.NamesFollow old new g') (hregular : layout.Regular)
    (harray : layout.style.isArray = true) (hn : Node.Follows old new n n')
    (hwords : ∀ name ∈ n.incoming, Identifier.isWord name.toList = true)
    (habsent : ¬new.toList <:+: (n.field layout.key).toList) :
    Moved old new (layout.ownNames n) (tokenNames (layout.normal n g))
      (tokenNames (layout.normal n' g')) := by
  obtain ⟨qs, htokens, hqs, hbefore, hafter⟩ := h.exists_items hn layout.key
  have habsent' : ∀ q ∈ qs, spelled id q ≠ new.toList := fun q hq heq => habsent (by
    rw [← heq]
    exact Field.infix_of_mem_arrayItems (hbefore ▸ List.mem_map_of_mem hq))
  rw [normal_of_isArray hregular harray, normal_of_isArray hregular harray,
    Field.tokenNames_renderArray, Field.tokenNames_renderArray]
  cases qs with
  | nil =>
    have hown : layout.ownNames n = [] := by
      rw [ownNames, ← htokens]
      rfl
    rw [hown, items, items, TaskGraph.elements, TaskGraph.elements, hbefore, hafter, List.map_nil,
      List.map_nil, List.map_nil, List.map_nil]
    split
    · rw [incomingItems_nil, incomingItems_nil, Field.tokenNames_incoming hwords,
        Field.tokenNames_incoming (hn.isWord_incoming h.isWord hwords), hn.incoming]
      exact TaskGraph.moved_names n.incoming
    · exact .nil
  | cons q qs =>
    have hne : Field.arrayItems (n.field layout.key).toList ≠ [] := hbefore ▸ List.cons_ne_nil _ _
    have hne' : Field.arrayItems (n'.field layout.key).toList ≠ [] := hafter ▸ List.cons_ne_nil _ _
    have hmoved := h.moved_items (q :: qs) hqs habsent'
    rw [htokens, ← hbefore, ← hafter] at hmoved
    rw [items_of_ne_nil hne, items_of_ne_nil hne']
    exact hmoved

/-- A value of any other style is written in one step that leaves tokens whole. -/
theorem exists_step (harray : layout.style.isArray = false) :
    ∃ step : List Char → List Char, Piece.TokenWise step ∧
      ∀ (n : Node) (g : TaskGraph), layout.normal n g = step (layout.effective n).toList := by
  cases hstyle : layout.style with
  | bare | quoted => exact ⟨_, Piece.tokenWise_trim, fun n g => by rw [normal, hstyle]⟩
  | body => exact ⟨_, Piece.tokenWise_collapseBody, fun n g => by rw [normal, hstyle]⟩
  | escaped => exact ⟨_, Piece.TokenWise.id, fun n g => by rw [normal, hstyle]; rfl⟩
  | array | incomingArray =>
    rw [hstyle] at harray
    cases harray

/-- The tokens of a field before and after a rename. -/
theorem moved_normal (h : g.NamesFollow old new g') (hregular : layout.Regular)
    (hn : Node.Follows old new n n')
    (hwords : ∀ name ∈ n.incoming, Identifier.isWord name.toList = true)
    (habsent : ¬new.toList <:+: (n.field layout.key).toList) :
    Moved old new (layout.ownNames n) (tokenNames (layout.normal n g))
      (tokenNames (layout.normal n' g')) := by
  cases harray : layout.style.isArray with
  | true => exact moved_list h hregular harray hn hwords habsent
  | false =>
    obtain ⟨step, hstep, hnormal⟩ := exists_step harray
    rw [hnormal, hnormal, effective, effective, hn.blank_field]
    by_cases hdefault : (Text.blank (n.field layout.key) && decide (layout.default ≠ "")) = true
    · rw [if_pos hdefault, if_pos hdefault]
      -- A blank has no tokens, and its default is written before and after.
      have hown : layout.ownNames n = [] := by
        have hblank : (spelled id (pieces (n.field layout.key).toList)).all Text.isBlank = true := by
          rw [Piece.spelled_pieces]
          exact (Bool.and_eq_true_iff.1 hdefault).1
        rw [ownNames, ← Piece.tokens_pieces, Field.tokens_eq_nil_of_blank hblank]
        rfl
      rw [hown]
      exact .of_formed _
    · rw [if_neg hdefault, if_neg hdefault, hn.toList_field]
      have hmoved := Moved.of_tokenWise old hstep h.isWord
        (whole_pieces (n.field layout.key).toList)
      rw [Piece.spelled_pieces] at hmoved
      exact hmoved

end FieldLayout

/-! ## Declarations -/

/-- The same fields are written before and after a rename. -/
theorem Node.Follows.declaredFields {R : String → String → Prop} (hn : Node.Follows old new n n')
    {layouts : List FieldLayout} (h : ∀ layout ∈ layouts,
      R (String.ofList (layout.normal n g)) (String.ofList (layout.normal n' g'))) :
    List.Forall₂ (fun a a' => a.1 = a'.1 ∧ R a.2 a'.2) (n.declaredFields g layouts)
      (n'.declaredFields g' layouts) := by
  induction layouts with
  | nil => exact .nil
  | cons layout layouts ih =>
    obtain ⟨hlayout, hlayouts⟩ := List.forall_mem_cons.1 h
    rw [Node.declaredFields, Node.declaredFields, List.filterMap_cons, List.filterMap_cons,
      hn.blank_effective]
    cases layout.omitWhenEmpty && Text.blank (layout.effective n) with
    | true => exact ih hlayouts
    | false => exact .cons ⟨rfl, hlayout⟩ (ih hlayouts)

end JobPipeline
