import JobPipeline.Proofs.Dict
import JobPipeline.Proofs.Field.Retargeting
import JobPipeline.Resolve

/-
What a field means after its tokens were renamed.

A token that is put in place of another is read again as the one token it is, and the text
around it begins no token that was not there before: an unfinished one that runs up to a
token is stopped by its dollar sign, whatever the token.  So a renamed text has the same
pieces with the tokens renamed, and finding, renaming back and resolving go by the pieces.
-/
namespace JobPipeline

open Piece (spelled tokens Whole Keeps)

namespace Piece

/-- A piece with another token in the place of its own. -/
def mapToken (f : Reference → Reference) : Piece → Piece
  | .plain c => .plain c
  | .token r => .token (f r)

variable {f g : Reference → Reference} {ps : List Piece}

theorem spelled_map (ps : List Piece) : spelled g (ps.map (mapToken f)) = spelled (fun r => g (f r)) ps := by
  induction ps with
  | nil => rfl
  | cons p ps ih =>
    cases p with
    | plain c => rw [List.map_cons, mapToken, spelled_plain, spelled_plain, ih]
    | token r => rw [List.map_cons, mapToken, spelled_token, spelled_token, ih]

theorem tokens_map (ps : List Piece) : tokens (ps.map (mapToken f)) = (tokens ps).map f := by
  induction ps with
  | nil => rfl
  | cons p ps ih =>
    cases p with
    | plain c => rw [List.map_cons, mapToken, tokens_plain, tokens_plain, ih]
    | token r => rw [List.map_cons, mapToken, tokens_token, tokens_token, List.map_cons, ih]

theorem spelled_congr (h : ∀ r ∈ tokens ps, f r = g r) : spelled f ps = spelled g ps := by
  induction ps with
  | nil => rfl
  | cons p ps ih =>
    cases p with
    | plain c => rw [spelled_plain, spelled_plain, ih h]
    | token r =>
      obtain ⟨hr, hps⟩ := List.forall_mem_cons.1 h
      rw [spelled_token, spelled_token, hr, ih hps]

/-- A text with other tokens has these tokens, in the same places, and no more. -/
theorem pieces_spelled (hf : Keeps f) (cs : List Char) :
    pieces (spelled f (pieces cs)) = (pieces cs).map (mapToken f) := by
  fun_induction pieces cs with
  | case1 =>
    show pieces [] = []
    rw [pieces]
  | case2 c cs r rest hscan ih =>
    rw [spelled_token, (hf r (Reference.readable_of_scan? hscan)).pieces_text, ih]
    rfl
  | case3 c cs hscan ih =>
    have hnone : Reference.scan? (c :: spelled f (pieces cs)) = none := by
      refine scan?_plain_eq_none (f := id) ?_
      rwa [spelled_pieces]
    rw [spelled_plain, pieces_cons_of_none hnone, ih]
    rfl

/-- A mark that begins outside of tokens and has no dollar sign stands among the plain
pieces, whatever the tokens are. -/
theorem infix_spelled (hf : Keeps f) (hps : Whole ps) {m : Char} {mark : List Char}
    (hm : Reference.isTextChar m = false) (hmark : '$' ∉ mark) (h : m :: mark <:+: spelled f ps) :
    m :: mark <:+: spelled g ps := by
  obtain ⟨front, back, htext⟩ := h
  rw [List.append_assoc, List.cons_append] at htext
  obtain ⟨qs, rs, rfl, -, hrest⟩ := eq_of_spelled_eq_append_cons hf hps hm htext.symm
  obtain ⟨ss, rfl, -⟩ := eq_of_spelled_eq_append hmark hrest.symm
  refine ⟨spelled g qs, spelled g ss, ?_⟩
  rw [spelled_append, spelled_plain, spelled_append, spelled_map_plain, List.append_assoc, List.cons_append]

end Piece

namespace Field

theorem unmarked_spelled {f : Reference → Reference} (hf : Keeps f) {cs : List Char} (h : Unmarked cs) :
    Unmarked (spelled f (pieces cs)) := by
  rw [← Piece.spelled_pieces cs] at h
  have hwhole := Piece.whole_pieces cs
  exact ⟨fun hmark => h.opening (Piece.infix_spelled hf hwhole (by decide) (by decide) hmark),
    fun hmark => h.closing (Piece.infix_spelled hf hwhole (by decide) (by decide) hmark)⟩

end Field

/-! ## Variables under other names -/

namespace Dict

variable {α : Type}

/-- The value of one key, if there is one, under another key. -/
def moved (d : Dict α) (old new : String) : Dict α :=
  match d.find? old with
  | some value => (d.erase old).insert new value
  | none => d

/-- What was found under a key is found under the name that takes its place. -/
theorem find?_moved {d : Dict α} {old new key : String} (hfree : d.find? new = none) (hkey : key ≠ new) :
    (d.moved old new).find? (followName old new key) = d.find? key := by
  rw [moved, followName]
  cases hold : d.find? old with
  | none =>
    by_cases heq : key = old
    · rw [if_pos heq, heq, hold]
      exact hfree
    · rw [if_neg heq]
  | some value =>
    by_cases heq : key = old
    · rw [if_pos heq, heq, hold]
      exact find?_insert_self ..
    · show ((d.erase old).insert new value).find? _ = _
      rw [if_neg heq, find?_insert_of_ne _ (Ne.symm hkey), find?_erase, if_neg (Ne.symm heq)]

end Dict

namespace Vars

theorem lookup_moved {vars : Vars} (old : String) {new : String} (hfree : vars.find? new = none) {r : Reference}
    (hr : r.id ≠ new) : Vars.lookup (vars.moved old new) (r.retargeted old new) = vars.lookup r := by
  have hpath : (r.retargeted old new).path = r.path := by
    rw [Reference.retargeted]
    split <;> rfl
  rw [lookup, lookup, Reference.retargeted_id, hpath, Dict.find?_moved hfree hr]

variable {vars vars' : Vars} {f : Reference → Reference}

theorem splice_map {ps : List Piece} (h : ∀ r ∈ tokens ps, vars'.lookup (f r) = vars.lookup r) :
    (ps.map (Piece.mapToken f)).flatMap vars'.splice = ps.flatMap vars.splice := by
  induction ps with
  | nil => rfl
  | cons p ps ih =>
    rw [List.map_cons, List.flatMap_cons, List.flatMap_cons]
    cases p with
    | plain c => rw [Piece.mapToken, ih h, splice, splice]
    | token r =>
      obtain ⟨hr, hps⟩ := List.forall_mem_cons.1 h
      rw [Piece.mapToken, ih hps, splice, splice, hr]

/-- A text with other tokens resolves to the same value where these lead to the same values. -/
theorem resolveText_spelled (hf : Keeps f) {cs : List Char} (hmarks : Field.Unmarked cs)
    (h : ∀ r ∈ Field.references cs, vars'.lookup (f r) = vars.lookup r) :
    vars'.resolveText (String.ofList (spelled f (pieces cs))) = vars.resolveText (String.ofList cs) := by
  have hpieces := Piece.pieces_spelled hf cs
  have hreferences : ((pieces cs).map (Piece.mapToken f)).filterMap Piece.reference? =
      (Field.references cs).map f := Piece.tokens_map (pieces cs)
  have hsplice := splice_map h
  have hblank : ((pieces cs).map (Piece.mapToken f)).all
        (fun p => p.text.all Text.isBlank || p.reference?.isSome) =
      (pieces cs).all fun p => p.text.all Text.isBlank || p.reference?.isSome := by
    rw [List.all_map]
    congr 1
    funext p
    cases p with
    | plain c => rfl
    | token r => simp [Piece.mapToken, Piece.reference?]
  rw [resolveText, resolveText, String.toList_ofList, String.toList_ofList]
  simp only [(Field.unmarked_spelled hf hmarks).unhighlight, hmarks.unhighlight, hpieces, hreferences, hsplice,
    hblank]
  have hfound : (pieces cs).filterMap Piece.reference? = Field.references cs := rfl
  rw [hfound]
  cases hlist : Field.references cs with
  | nil =>
    have hnone : ∀ r ∈ tokens (pieces cs), f r = id r := by
      rw [Piece.tokens_pieces, hlist]
      exact fun r hr => absurd hr List.not_mem_nil
    have hsame : spelled f (pieces cs) = cs := by
      rw [Piece.spelled_congr hnone, Piece.spelled_pieces]
    simp only [List.map_nil, hsame]
  | cons r more =>
    cases more with
    | nil =>
      have hvalue := h r (hlist ▸ List.mem_singleton_self r)
      simp only [List.map_cons, List.map_nil, hvalue]
    | cons r' more => simp only [List.map_cons]

end Vars

/-! ## A renamed text -/

namespace Field

variable {s new : String}

theorem findReferences_of_unmarked (hmarks : Unmarked s.toList) : findReferences s = references s.toList := by
  rw [findReferences, hmarks.unhighlight]

theorem findReferences_renameReferences (old : String) (hmarks : Unmarked s.toList)
    (hnew : Identifier.isWord new.toList = true) :
    findReferences (renameReferences old new s) = (findReferences s).map (Reference.retargeted old new) := by
  have hkeeps := Reference.keeps_retargeted old hnew
  rw [findReferences, renameReferences_eq, (unmarked_spelled hkeeps hmarks).unhighlight, references,
    Piece.pieces_spelled hkeeps, findReferences_of_unmarked hmarks]
  exact Piece.tokens_map (pieces s.toList)

/-- A new name that no token of the text had can be renamed back. -/
theorem renameReferences_renameReferences (old : String) (hnew : Identifier.isWord new.toList = true)
    (hfree : ∀ r ∈ references s.toList, r.id ≠ new) :
    renameReferences new old (renameReferences old new s) = s := by
  have hback : ∀ r ∈ tokens (pieces s.toList),
      (r.retargeted old new).retargeted new old = id r := by
    intro r hr
    rw [Reference.retargeted, Reference.retargeted]
    by_cases hold : r.id = old
    · rw [if_pos hold, if_pos rfl, ← hold]
      rfl
    · rw [if_neg hold, if_neg (hfree r hr)]
      rfl
  rw [← String.toList_inj, renameReferences_eq, renameReferences_eq,
    Piece.pieces_spelled (Reference.keeps_retargeted old hnew), Piece.spelled_map, Piece.spelled_congr hback,
    Piece.spelled_pieces]

theorem resolveText_renameReferences (old : String) (hmarks : Unmarked s.toList)
    (hnew : Identifier.isWord new.toList = true) (hfree : ∀ r ∈ references s.toList, r.id ≠ new)
    {vars : Vars} (hvars : vars.find? new = none) :
    Vars.resolveText (vars.moved old new) (renameReferences old new s) = vars.resolveText s := by
  have hresolved := Vars.resolveText_spelled (Reference.keeps_retargeted old hnew) hmarks
    fun r hr => Vars.lookup_moved old hvars (hfree r hr)
  rwa [← renameReferences_eq, String.ofList_toList, String.ofList_toList] at hresolved

/-- In a text without marks, renaming tokens to a name that none of them had renames what is
found and nothing else, is undone by renaming back, and leaves the value of the text as it
was where the variable goes by the new name too. -/
theorem renameReferences_faithful (old : String) (hmarks : Unmarked s.toList)
    (hnew : Identifier.isWord new.toList = true) (hfree : ∀ r ∈ findReferences s, r.id ≠ new) :
    findReferences (renameReferences old new s) = (findReferences s).map (Reference.retargeted old new) ∧
      renameReferences new old (renameReferences old new s) = s ∧
      ∀ vars : Vars, vars.find? new = none →
        Vars.resolveText (vars.moved old new) (renameReferences old new s) = vars.resolveText s := by
  have hfound := findReferences_renameReferences old hmarks hnew
  rw [findReferences_of_unmarked hmarks] at hfree
  exact ⟨hfound, renameReferences_renameReferences old hnew hfree,
    fun _ hvars => resolveText_renameReferences old hmarks hnew hfree hvars⟩

/-- Unfinished tokens stand in front of whole ones and behind them. -/
def crowded : String := "$($(fetch.page)$(fetch$(fetches) $(fetch"

theorem renameReferences_faithful_crowded :
    Unmarked crowded.toList ∧ Identifier.isWord "load".toList = true ∧
      (∀ r ∈ findReferences crowded, r.id ≠ "load") ∧
      renameReferences "fetch" "load" crowded = "$($(load.page)$(fetch$(fetches) $(fetch" ∧
      findReferences (renameReferences "fetch" "load" crowded) = [⟨"load", ["page"]⟩, ⟨"fetches", []⟩] ∧
      renameReferences "load" "fetch" (renameReferences "fetch" "load" crowded) = crowded ∧
      Vars.resolveText (Dict.ofList [("load", .object [("page", .string "5")])])
        (renameReferences "fetch" "load" crowded) = .string "$(5$(fetchnull $(fetch" := by
  have hmarks : Unmarked crowded.toList := by decide +kernel
  have hword : Identifier.isWord "load".toList = true := by decide
  have hfree : ∀ r ∈ findReferences crowded, r.id ≠ "load" := by decide +kernel
  obtain ⟨hfound, hback, hvalue⟩ := renameReferences_faithful "fetch" hmarks hword hfree
  refine ⟨hmarks, hword, hfree, by decide +kernel, ?_, hback, ?_⟩
  · rw [hfound]
    decide +kernel
  · have hvars : (Dict.ofList [("fetch", Json.object [("page", .string "5")])]).moved "fetch" "load" =
        Dict.ofList [("load", .object [("page", .string "5")])] := by decide +kernel
    rw [← hvars, hvalue _ (by decide +kernel)]
    decide +kernel

end Field
end JobPipeline
