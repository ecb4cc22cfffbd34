import JobPipeline.Proofs.Field.Spelling
import JobPipeline.Proofs.Matching
import JobPipeline.Proofs.Text.Bytes

/-
Where the tokens of a text are.

A token that stands in a text is a piece of its own, whatever is around it: no other token
goes into it, for behind its dollar sign a token has no other.  So the places that
`tokenSpans` gives are those of all tokens that stand in the text.  They are counted in
bytes; as a token has only characters of ASCII, it is no matter whether it is looked for
among the bytes of the text or among its characters.

`scanFrom` is the search among the bytes, from left to right, behind a token where one
begins and one byte further where none does.  It may so stop inside of a character, but no
token begins there.  A body is not taken apart for the search: it begins as a name does,
does not end with a point and has no two points side by side.
-/
namespace JobPipeline

namespace Field

theorem byteLength_eq (cs : List Char) : byteLength cs = (Text.bytes cs).length := by
  induction cs with
  | nil => rfl
  | cons c cs ih =>
    rw [byteLength, ih, Text.bytes_cons, List.length_append, String.length_utf8EncodeChar]

theorem byteLength_append (cs ds : List Char) : byteLength (cs ++ ds) = byteLength cs + byteLength ds := by
  rw [byteLength_eq, byteLength_eq, byteLength_eq, Text.bytes_append, List.length_append]

end Field

namespace Reference

variable {r : Reference}

theorem lt_of_isBodyChar {c : Char} (h : isBodyChar c = true) : c.toNat < 128 := by
  rcases (isBodyChar_iff c).1 h with hrest | rfl
  · have hrange := Identifier.range_of_isRest hrest
    omega
  · decide

/-- A token has characters of ASCII only. -/
theorem Readable.ascii (h : r.Readable) : ∀ c ∈ r.text, c.toNat < 128 := by
  intro c hc
  have hclass := h.isTextChar c hc
  simp only [Reference.isTextChar, Bool.or_eq_true, beq_iff_eq] at hclass
  rcases hclass with ((rfl | rfl) | rfl) | hbody
  · decide
  · decide
  · decide
  · exact lt_of_isBodyChar hbody

/-- Takes a token apart at its points, without a look at what the parts are. -/
def parts? (token : List Char) : Option Reference :=
  match Text.afterMark? ['$', '('] token with
  | none => none
  | some cs =>
    if cs.getLast? = some ')' then
      match Text.splitOn '.' cs.dropLast with
      | id :: path => some ⟨String.ofList id, path.map String.ofList⟩
      | [] => none
    else none

theorem Readable.parts?_text (h : r.Readable) : parts? r.text = some r := by
  have hafter : Text.afterMark? ['$', '('] r.text = some (r.body ++ [')']) := rfl
  have hparts : ∀ part ∈ r.id.toList :: r.path.map String.toList, '.' ∉ part :=
    fun part hpart hc => absurd (h.isRest part hpart _ hc) (by decide)
  have hsplit : Text.splitOn '.' r.body = r.id.toList :: r.path.map String.toList :=
    Text.splitOn_joinWith (List.cons_ne_nil _ _) hparts
  rw [parts?, hafter]
  simp only [List.getLast?_concat, if_true, List.dropLast_concat, hsplit, String.ofList_toList,
    List.map_map, Function.comp_def, List.map_id']

/-! ## Bodies -/

/-- A body that names a task or a space and the parts of a path. -/
structure WellFormed (cs : List Char) : Prop where
  start : cs.head?.any isStartChar = true
  last : cs.getLast? ≠ some '.'
  points : ¬['.', '.'] <:+: cs

instance (cs : List Char) : Decidable (WellFormed cs) :=
  decidable_of_iff (cs.head?.any isStartChar = true ∧ cs.getLast? ≠ some '.' ∧ ¬['.', '.'] <:+: cs)
    ⟨fun h => ⟨h.1, h.2.1, h.2.2⟩, fun h => ⟨h.start, h.last, h.points⟩⟩

theorem exists_ofBody?_iff {cs : List Char} : (∃ r, ofBody? cs = some r) ↔ WellFormed cs := by
  obtain ⟨id, path, hparts⟩ := List.exists_cons_of_ne_nil (Text.splitOn_ne_nil '.' cs)
  have htail := Text.splitOn_tail_iff '.' cs
  rw [hparts, List.tail_cons] at htail
  have hhead : (id.head?.any isStartChar) = cs.head?.any isStartChar := by
    have hcs := Text.joinWith_splitOn '.' cs
    rw [hparts, Text.joinWith_cons] at hcs
    rw [← hcs]
    cases id with
    | nil => cases path <;> rfl
    | cons c id => rfl
  have hpath : path.all (· ≠ []) = true ↔ ∀ part ∈ path, part ≠ [] := by simp
  rw [ofBody?, hparts]
  simp only [hhead, hpath, htail]
  constructor
  · rintro ⟨r, hr⟩
    split at hr
    · next hwell => exact ⟨hwell.1, hwell.2.1, hwell.2.2⟩
    · cases hr
  · intro h
    rw [if_pos ⟨h.start, h.last, h.points⟩]
    exact ⟨_, rfl⟩

end Reference

/-! ## Pieces -/

/-- In front of a token the pieces are what they are without it. -/
theorem pieces_append_text {r : Reference} (h : r.Readable) (front back : List Char) :
    pieces (front ++ (r.text ++ back)) = pieces front ++ .token r :: pieces back := by
  fun_induction pieces front with
  | case1 => exact h.pieces_text back
  | case2 c cs r' rest hscan ih =>
    have htext := Reference.text_of_scan? hscan
    rw [htext, List.append_assoc, (Reference.readable_of_scan? hscan).pieces_text, ih]
    rfl
  | case3 c cs hscan ih =>
    have hnone : Reference.scan? (c :: (cs ++ (r.text ++ back))) = none := by
      rw [Option.eq_none_iff_forall_ne_some]
      rintro ⟨r', rest⟩ hsome
      obtain ⟨tail, htail, hdollar⟩ := (Reference.readable_of_scan? hsome).text_eq
      have heq := Reference.text_of_scan? hsome
      rw [← List.cons_append] at heq
      rcases List.append_eq_append_iff.1 heq with ⟨more, hmore, hback⟩ | ⟨more, hmore, -⟩
      · cases more with
        | nil =>
          rw [List.append_nil] at hmore
          rw [← hmore] at hscan
          have hself := (Reference.readable_of_scan? hsome).scan?_text []
          rw [List.append_nil, hscan] at hself
          cases hself
        | cons d more =>
          -- The other token would have the dollar sign that this one begins with.
          have hd : d = '$' := (List.cons.inj hback).1.symm
          rw [htail, List.cons_append] at hmore
          refine hdollar ?_
          rw [(List.cons.inj hmore).2, hd]
          exact List.mem_append_right _ List.mem_cons_self
      · rw [hmore, (Reference.readable_of_scan? hsome).scan?_text] at hscan
        cases hscan
    rw [List.cons_append, pieces_cons_of_none hnone, ih]
    rfl

namespace Field

/-! ## Places -/

/-- A part of a text, between two places that are counted in bytes. -/
def At (cs part : List Char) (span : Nat × Nat) : Prop :=
  ∃ front back, cs = front ++ (part ++ back) ∧ span = (byteLength front, byteLength front + byteLength part)

/-- A part of a run of bytes, between two places. -/
def Between (all part : List UInt8) (span : Nat × Nat) : Prop :=
  ∃ before after, all = before ++ (part ++ after) ∧ span = (before.length, before.length + part.length)

/-- Bytes that spell a text of ASCII begin and end where characters do. -/
theorem between_bytes_iff {cs part : List Char} (hascii : ∀ c ∈ part, c.toNat < 128) (hne : part ≠ [])
    {span : Nat × Nat} : Between (Text.bytes cs) (Text.bytes part) span ↔ At cs part span := by
  constructor
  · rintro ⟨before, after, hall, rfl⟩
    obtain ⟨front, back, rfl, rfl, rfl⟩ := Text.exists_of_bytes_eq hascii hne hall
    exact ⟨front, back, rfl, by rw [byteLength_eq, byteLength_eq]⟩
  · rintro ⟨front, back, rfl, rfl⟩
    exact ⟨Text.bytes front, Text.bytes back, by rw [Text.bytes_append, Text.bytes_append],
      by rw [byteLength_eq, byteLength_eq]⟩

theorem spansFrom_append (offset : Nat) (ps qs : List Piece) :
    spansFrom offset (ps ++ qs) =
      spansFrom offset ps ++ spansFrom (offset + byteLength (ps.flatMap Piece.text)) qs := by
  induction ps generalizing offset with
  | nil => rfl
  | cons p ps ih =>
    rw [List.flatMap_cons, byteLength_append, ← Nat.add_assoc]
    cases p with
    | plain c => exact ih _
    | token r => exact congrArg _ (ih _)

/-- Behind a text, each token of some pieces is at the place that is given for it. -/
theorem forall₂_spansFrom (front : List Char) (ps : List Piece) :
    List.Forall₂ (fun span r => At (front ++ ps.flatMap Piece.text) (Reference.text r) span)
      (spansFrom (byteLength front) ps) (Piece.tokens ps) := by
  induction ps generalizing front with
  | nil => exact .nil
  | cons p ps ih =>
    have hrest := ih (front ++ p.text)
    rw [List.append_assoc, ← List.flatMap_cons, byteLength_append] at hrest
    cases p with
    | plain c => exact hrest
    | token r => exact .cons ⟨front, ps.flatMap Piece.text, rfl, rfl⟩ hrest

/-- No place begins before the one in front of it ends. -/
theorem pairwise_spansFrom (offset : Nat) (ps : List Piece) :
    (∀ span ∈ spansFrom offset ps, offset ≤ span.1) ∧
      (spansFrom offset ps).Pairwise fun a b => a.1 < b.1 ∧ a.2 ≤ b.1 := by
  induction ps generalizing offset with
  | nil => exact ⟨fun _ h => absurd h List.not_mem_nil, .nil⟩
  | cons p ps ih =>
    obtain ⟨hfrom, hpairs⟩ := ih (offset + byteLength p.text)
    have hle : ∀ span ∈ spansFrom (offset + byteLength p.text) ps, offset ≤ span.1 := fun span hspan =>
      Nat.le_trans (Nat.le_add_right ..) (hfrom span hspan)
    cases p with
    | plain c => exact ⟨hle, hpairs⟩
    | token r =>
      have hpos : 0 < byteLength r.text := by
        rw [byteLength_eq, List.length_pos_iff]
        exact fun hnil => absurd (Text.bytes_eq_nil.1 hnil) (List.cons_ne_nil _ _)
      refine ⟨List.forall_mem_cons.2 ⟨Nat.le_refl _, hle⟩, .cons (fun span hspan => ?_) hpairs⟩
      have hbehind : offset + byteLength r.text ≤ span.1 := hfrom span hspan
      exact ⟨Nat.lt_of_lt_of_le (Nat.lt_add_of_pos_right hpos) hbehind, hbehind⟩

theorem at_of_tokenSpans (cs : List Char) :
    List.Forall₂ (fun span r => At cs (Reference.text r) span) (tokenSpans cs) (references cs) := by
  have hall := forall₂_spansFrom [] (pieces cs)
  rwa [List.nil_append, flatMap_text_pieces] at hall

theorem mem_tokenSpans_of_at {cs : List Char} {r : Reference} (h : r.Readable) {span : Nat × Nat}
    (hat : At cs r.text span) : span ∈ tokenSpans cs := by
  obtain ⟨front, back, rfl, rfl⟩ := hat
  rw [tokenSpans, pieces_append_text h, spansFrom_append, flatMap_text_pieces, Nat.zero_add]
  exact List.mem_append_right _ List.mem_cons_self

/-- The places are those of the tokens that stand in the text. -/
theorem mem_tokenSpans_iff {cs : List Char} {span : Nat × Nat} :
    span ∈ tokenSpans cs ↔ ∃ r : Reference, r.Readable ∧ At cs r.text span := by
  constructor
  · intro h
    obtain ⟨r, hr, hat⟩ := forall₂_left (at_of_tokenSpans cs) h
    exact ⟨r, Piece.whole_pieces cs r hr, hat⟩
  · rintro ⟨r, hr, hat⟩
    exact mem_tokenSpans_of_at hr hat

/-! ## The search among the bytes -/

/-- A byte that may stand between the parentheses of a token. -/
def isBodyByte (b : UInt8) : Bool := Reference.isBodyChar (Text.ofByte b)

/-- How long the token is that begins a run of bytes. -/
def tokenLength? : List UInt8 → Option Nat
  | d :: p :: bs =>
    let body := bs.takeWhile isBodyByte
    if d = '$'.toUInt8 ∧ p = '('.toUInt8 ∧ (bs.dropWhile isBodyByte).head? = some ')'.toUInt8 ∧
        Reference.WellFormed (body.map Text.ofByte) then
      some (body.length + 3)
    else none
  | _ => none

theorem takeWhile_isBodyByte (cs : List Char) :
    (Text.bytes cs).takeWhile isBodyByte = Text.bytes (cs.takeWhile Reference.isBodyChar) ∧
      (Text.bytes cs).dropWhile isBodyByte = Text.bytes (cs.dropWhile Reference.isBodyChar) :=
  Text.takeWhile_bytes (fun _ h => Reference.lt_of_isBodyChar h) cs

theorem map_ofByte_takeWhile (cs : List Char) :
    ((Text.bytes cs).takeWhile isBodyByte).map Text.ofByte = cs.takeWhile Reference.isBodyChar := by
  rw [(takeWhile_isBodyByte cs).1]
  exact Text.map_ofByte_bytes fun c hc =>
    Reference.lt_of_isBodyChar (List.all_eq_true.1 List.all_takeWhile c hc)

theorem byteLength_text (r : Reference) : byteLength r.text = (Text.bytes r.body).length + 3 := by
  have htext := Reference.text_append r []
  rw [List.append_nil] at htext
  rw [byteLength_eq, htext, Text.bytes_cons_ascii (by decide), Text.bytes_cons_ascii (by decide),
    Text.bytes_append, List.length_cons, List.length_cons, List.length_append]
  rfl

theorem tokenLength?_eq_some_iff {bs : List UInt8} {n : Nat} :
    tokenLength? bs = some n ↔
      ∃ rest, bs = '$'.toUInt8 :: '('.toUInt8 :: rest ∧
        (rest.dropWhile isBodyByte).head? = some ')'.toUInt8 ∧
        Reference.WellFormed ((rest.takeWhile isBodyByte).map Text.ofByte) ∧
        (rest.takeWhile isBodyByte).length + 3 = n := by
  constructor
  · intro h
    rw [tokenLength?.eq_def] at h
    split at h
    · next d p rest =>
      obtain ⟨⟨rfl, rfl, hend, hbody⟩, hn⟩ := Option.ite_none_right_eq_some.1 h
      exact ⟨rest, rfl, hend, hbody, Option.some.inj hn⟩
    · cases h
  · rintro ⟨rest, rfl, hend, hbody, rfl⟩
    exact if_pos ⟨rfl, rfl, hend, hbody⟩

/-- Where a token begins the bytes of a text, it begins the text. -/
theorem exists_scan?_of_tokenLength? {cs : List Char} {n : Nat} (h : tokenLength? (Text.bytes cs) = some n) :
    ∃ r rest, Reference.scan? cs = some (r, rest) := by
  obtain ⟨bs, hbytes, hend, hwell, -⟩ := tokenLength?_eq_some_iff.1 h
  have hmark : ∀ c ∈ ['$', '('], c.toNat < 128 :=
    List.forall_mem_cons.2 ⟨by decide, List.forall_mem_singleton.2 (by decide)⟩
  have hopening : Text.bytes cs = Text.bytes ['$', '('] ++ bs := hbytes
  obtain ⟨ds, rfl, rfl⟩ := Text.exists_of_bytes_eq_append hmark hopening
  rw [map_ofByte_takeWhile] at hwell
  obtain ⟨r, hr⟩ := Reference.exists_ofBody?_iff.2 hwell
  rw [(takeWhile_isBodyByte ds).2] at hend
  obtain ⟨bs, hbehind⟩ := List.head?_eq_some_iff.1 hend
  have hclosing : Text.bytes (ds.dropWhile Reference.isBodyChar) = Text.bytes [')'] ++ bs := hbehind
  obtain ⟨rest, hrest, -⟩ :=
    Text.exists_of_bytes_eq_append (List.forall_mem_singleton.2 (by decide)) hclosing
  refine ⟨r, rest, ?_⟩
  rw [List.cons_append, List.cons_append, List.nil_append, Reference.scan?, hrest]
  simp only [List.cons_append, List.nil_append, hr, Option.map_some]

theorem tokenLength?_text {r : Reference} (h : r.Readable) (rest : List Char) :
    tokenLength? (Text.bytes (r.text ++ rest)) = some (byteLength r.text) := by
  obtain ⟨htake, hdrop⟩ := h.takeWhile_body rest
  refine tokenLength?_eq_some_iff.2 ⟨Text.bytes (r.body ++ ')' :: rest), ?_, ?_, ?_, ?_⟩
  · rw [Reference.text_append, Text.bytes_cons_ascii (by decide), Text.bytes_cons_ascii (by decide)]
  · rw [(takeWhile_isBodyByte _).2, hdrop, Text.bytes_cons_ascii (by decide), List.head?_cons]
  · rw [map_ofByte_takeWhile, htake]
    exact Reference.exists_ofBody?_iff.1 ⟨r, h.ofBody?_body⟩
  · rw [(takeWhile_isBodyByte _).1, htake, byteLength_text]

/-- The places of the tokens in a run of bytes, behind others that are already counted. -/
def scanFrom (offset : Nat) : List UInt8 → List (Nat × Nat)
  | [] => []
  | b :: bs =>
    match tokenLength? (b :: bs) with
    | some n => (offset, offset + n) :: scanFrom (offset + n) (bs.drop (n - 1))
    | none => scanFrom (offset + 1) bs
termination_by bs => bs.length

theorem scanFrom_text {r : Reference} (h : r.Readable) (offset : Nat) (rest : List Char) :
    scanFrom offset (Text.bytes (r.text ++ rest)) =
      (offset, offset + byteLength r.text) :: scanFrom (offset + byteLength r.text) (Text.bytes rest) := by
  have hlength := tokenLength?_text h rest
  obtain ⟨tail, htail, -⟩ := h.text_eq
  have hbytes : Text.bytes r.text = '$'.toUInt8 :: Text.bytes tail := by
    rw [htail, Text.bytes_cons_ascii (by decide)]
  have hdrop : (Text.bytes tail ++ Text.bytes rest).drop (byteLength r.text - 1) = Text.bytes rest := by
    rw [byteLength_eq, hbytes, List.length_cons, Nat.add_sub_cancel, List.drop_left]
  rw [Text.bytes_append, hbytes, List.cons_append] at hlength ⊢
  rw [scanFrom]
  simp only [hlength, hdrop]

/-- No token begins at a byte that is not a dollar sign. -/
theorem scanFrom_skip {front : List UInt8} (h : '$'.toUInt8 ∉ front) (offset : Nat) (rest : List UInt8) :
    scanFrom offset (front ++ rest) = scanFrom (offset + front.length) rest := by
  induction front generalizing offset with
  | nil => rfl
  | cons b front ih =>
    rw [List.mem_cons, not_or] at h
    have hnone : tokenLength? (b :: (front ++ rest)) = none := by
      rw [tokenLength?.eq_def]
      split
      · next heq =>
        obtain ⟨rfl, -⟩ := List.cons.inj heq
        exact if_neg fun hand => h.1 hand.1.symm
      · rfl
    rw [List.cons_append, scanFrom]
    simp only [hnone]
    rw [ih h.2, List.length_cons, Nat.add_assoc, Nat.add_comm 1]

theorem dollar_not_mem_utf8EncodeChar {c : Char} (hc : c ≠ '$') :
    '$'.toUInt8 ∉ String.utf8EncodeChar c := by
  intro hmem
  rcases Nat.lt_or_ge c.toNat 128 with hlt | hge
  · rw [Text.utf8EncodeChar_ascii hlt, List.mem_singleton] at hmem
    have hsame := congrArg Text.ofByte hmem
    rw [Text.ofByte_toUInt8 hlt, Text.ofByte_toUInt8 (by decide)] at hsame
    exact hc hsame.symm
  · exact absurd (Text.le_of_mem_utf8EncodeChar hge hmem) (by decide)

/-- Where no token begins, the search goes over the bytes of one character. -/
theorem scanFrom_plain {c : Char} {cs : List Char} (h : Reference.scan? (c :: cs) = none) (offset : Nat) :
    scanFrom offset (Text.bytes (c :: cs)) = scanFrom (offset + c.utf8Size) (Text.bytes cs) := by
  by_cases hc : c = '$'
  · subst hc
    have hnone : tokenLength? (Text.bytes ('$' :: cs)) = none := by
      rw [Option.eq_none_iff_forall_ne_some]
      intro n hn
      obtain ⟨r, rest, hsome⟩ := exists_scan?_of_tokenLength? hn
      rw [h] at hsome
      cases hsome
    rw [Text.bytes_cons_ascii (by decide)] at hnone ⊢
    rw [scanFrom]
    simp only [hnone]
    rfl
  · rw [Text.bytes_cons, scanFrom_skip (dollar_not_mem_utf8EncodeChar hc), String.length_utf8EncodeChar]

theorem scanFrom_bytes (offset : Nat) (cs : List Char) :
    scanFrom offset (Text.bytes cs) = spansFrom offset (pieces cs) := by
  fun_induction pieces cs generalizing offset with
  | case1 => rw [Text.bytes_nil, scanFrom, spansFrom]
  | case2 c cs r rest hscan ih =>
    rw [Reference.text_of_scan? hscan, scanFrom_text (Reference.readable_of_scan? hscan), ih]
    rfl
  | case3 c cs hscan ih =>
    rw [scanFrom_plain hscan, ih]
    rfl

/-! ## Tokens -/

/-- The search among the bytes finds the tokens of the text from left to right, none of them
within another: all that stand in it, at their places, and nothing else.  Each begins and
ends where a character does, and has the name and the path that it was read with. -/
theorem tokenSpans_exact (cs : List Char) :
    tokenSpans cs = scanFrom 0 (Text.bytes cs) ∧
    (tokenSpans cs).Pairwise (fun a b => a.1 < b.1 ∧ a.2 ≤ b.1) ∧
    (∀ span, span ∈ tokenSpans cs ↔
      ∃ r : Reference, r.Readable ∧ Between (Text.bytes cs) (Text.bytes r.text) span) ∧
    List.Forall₂ (fun span r => r.Readable ∧ At cs (Reference.text r) span ∧ Reference.parts? r.text = some r)
      (tokenSpans cs) (references cs) := by
  refine ⟨(scanFrom_bytes 0 cs).symm, (pairwise_spansFrom 0 (pieces cs)).2, fun span => ?_, ?_⟩
  · rw [mem_tokenSpans_iff]
    refine exists_congr fun r => and_congr_right fun hr => ?_
    exact (between_bytes_iff hr.ascii (List.cons_ne_nil _ _)).symm
  · refine (forall₂_mem (at_of_tokenSpans cs)).imp fun span r h => ?_
    have hr := Piece.whole_pieces cs r h.1.2
    exact ⟨hr, h.2, hr.parts?_text⟩

/-- A token behind a character of two bytes, one that is opened within another, and some
that are not closed or have an empty part. -/
example : tokenSpans "é$(a.0)$(b$(c)$(d $(e.)$(f..g)$(_)".toList = [(2, 8), (11, 15), (31, 35)] := by decide +kernel

end Field
end JobPipeline
