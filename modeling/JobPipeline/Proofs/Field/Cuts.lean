import JobPipeline.Field.Items

/-
Where a list is cut.

The scanner behind `Field.splitTopLevel` cuts at every comma and takes cuts back
when a bracket that was opened before them is closed.  Here the same cuts are
said the other way round, looking ahead: a comma cuts unless some later closing
bracket belongs to a bracket that is open at the comma.  Said so, each comma is a
matter of the brackets around it alone, and the proofs about items need nothing
else.

`cuts_eq` is the equation between the two.  What the scanner has finished so far
is only finished up to `low`, the least number of parts to which a bracket that
is still to be closed will go back.
-/
namespace JobPipeline
namespace Field

def textOf (as : List Atom) : List Char := as.flatMap Atom.text

@[simp] theorem textOf_nil : textOf [] = [] := rfl

@[simp] theorem textOf_cons (a : Atom) (as : List Atom) : textOf (a :: as) = a.text ++ textOf as :=
  List.flatMap_cons

@[simp] theorem textOf_append (as bs : List Atom) : textOf (as ++ bs) = textOf as ++ textOf bs :=
  List.flatMap_append

/-- The brackets below the last open one of a kind. -/
def popTo? (opener : Char) : List Char → Option (List Char)
  | [] => none
  | c :: rest => if c = opener then some rest else popTo? opener rest

/-- The open brackets behind an atom, the last first. -/
def pushed (stack : List Char) : Atom → List Char
  | .literal _ => stack
  | .char c =>
    if isOpener c then c :: stack
    else ((openerOf? c).bind fun o => popTo? o stack).getD stack

/-- Some closing bracket belongs to one of `base`, when the brackets of `stack`
are open above those. -/
def hits (base : List Char) : (stack : List Char) → List Atom → Bool
  | _, [] => false
  | stack, .literal _ :: as => hits base stack as
  | stack, .char c :: as =>
    if isOpener c then hits base (c :: stack) as
    else match openerOf? c with
      | none => hits base stack as
      | some o => match popTo? o stack with
        | some rest => hits base rest as
        | none => (popTo? o base).isSome || hits base stack as

/-- An atom before the first of some parts. -/
def prepend (a : Atom) : List (List Atom) → List (List Atom)
  | [] => [[a]]
  | part :: parts => (a :: part) :: parts

/-- The parts between the commas that cut, when the brackets of `stack` are open
at the start. -/
def cuts : (stack : List Char) → List Atom → List (List Atom)
  | _, [] => [[]]
  | stack, a :: as =>
    if a = .char ',' ∧ hits stack [] as = false then [] :: cuts stack as
    else prepend a (cuts (pushed stack a) as)

theorem cuts_ne_nil (stack : List Char) (as : List Atom) : cuts stack as ≠ [] := by
  cases as with
  | nil => simp [cuts]
  | cons a as =>
    rw [cuts]
    split
    · simp
    · cases cuts (pushed stack a) as <;> simp [prepend]

/-! ## The scanner -/

namespace Cut

theorem mend_eq (k : Nat) (cut : Cut) : mend k cut = { cut with
    finished := cut.finished.drop k
    current := cut.current ++ (cut.finished.take k).flatMap (',' :: ·) } := by
  induction k generalizing cut with
  | zero => simp [mend]
  | succ k ih =>
    cases hparts : cut.finished with
    | nil =>
      rw [mend, hparts]
      cases cut
      simp_all
    | cons part parts =>
      rw [mend, hparts]
      simp only
      rw [ih]
      simp [List.append_assoc]

/-- The least number of finished parts that a closing bracket goes back to, or
`d` when none goes back.  The brackets of `stack` are open above those of the
scanner. -/
def low : (d : Nat) → (opened : List (Char × Nat)) → (stack : List Char) → List Atom → Nat
  | d, _, _, [] => d
  | d, opened, stack, .literal _ :: as => low d opened stack as
  | d, opened, stack, .char c :: as =>
    if isOpener c then low d opened (c :: stack) as
    else match openerOf? c with
      | none => low d opened stack as
      | some o => match popTo? o stack with
        | some rest => low d opened rest as
        | none => match lastOpen? o opened with
          | some (n, before) => low n before [] as
          | none => low d opened stack as

theorem popTo?_map (o : Char) (opened : List (Char × Nat)) :
    popTo? o (opened.map Prod.fst) = (lastOpen? o opened).map fun x => x.2.map Prod.fst := by
  induction opened with
  | nil => rfl
  | cons head opened ih =>
    obtain ⟨c, n⟩ := head
    rw [List.map_cons, popTo?, lastOpen?]
    split
    · rfl
    · exact ih

/-- The open brackets are counted in the order in which they were opened. -/
def Ordered (m : Nat) (opened : List (Char × Nat)) : Prop :=
  opened.Pairwise (fun a b => b.2 ≤ a.2) ∧ ∀ e ∈ opened, e.2 ≤ m

theorem Ordered.mono {m m' : Nat} {opened : List (Char × Nat)} (h : Ordered m opened)
    (hle : m ≤ m') : Ordered m' opened := ⟨h.1, fun e he => Nat.le_trans (h.2 e he) hle⟩

theorem Ordered.lastOpen? {m : Nat} {opened : List (Char × Nat)} (h : Ordered m opened) {o : Char}
    {n : Nat} {before : List (Char × Nat)} (hfound : lastOpen? o opened = some (n, before)) :
    n ≤ m ∧ Ordered n before := by
  induction opened with
  | nil => cases hfound
  | cons head opened ih =>
    obtain ⟨c, k⟩ := head
    rw [Cut.lastOpen?] at hfound
    split at hfound
    · cases hfound
      exact ⟨h.2 _ List.mem_cons_self, (List.pairwise_cons.1 h.1).2, (List.pairwise_cons.1 h.1).1⟩
    · exact ih ⟨(List.pairwise_cons.1 h.1).2, fun e he => h.2 e (List.mem_cons_of_mem _ he)⟩ hfound

theorem low_le {d m : Nat} {opened : List (Char × Nat)} (h : Ordered m opened) (hd : d ≤ m)
    (stack : List Char) (as : List Atom) : low d opened stack as ≤ m := by
  induction as generalizing d opened stack m with
  | nil => exact hd
  | cons a as ih =>
    cases a with
    | literal inner => exact ih h hd stack
    | char c =>
      rw [low]
      split
      · exact ih h hd _
      · split
        · exact ih h hd _
        · split
          · exact ih h hd _
          · split
            · next n before hfound =>
              obtain ⟨hn, hbefore⟩ := h.lastOpen? hfound
              exact Nat.le_trans (ih hbefore (Nat.le_refl n) _) hn
            · exact ih h hd _

/-- Nothing goes back unless a bracket is hit. -/
theorem low_of_not_hits {d : Nat} {opened : List (Char × Nat)} {stack : List Char} {as : List Atom}
    (h : hits (opened.map Prod.fst) stack as = false) : low d opened stack as = d := by
  induction as generalizing stack with
  | nil => rfl
  | cons a as ih =>
    cases a with
    | literal inner => exact ih h
    | char c =>
      rw [hits] at h
      rw [low]
      split
      · next hc =>
        rw [if_pos hc] at h
        exact ih h
      · next hc =>
        rw [if_neg hc] at h
        cases ho : openerOf? c with
        | none =>
          rw [ho] at h
          exact ih h
        | some o =>
          rw [ho] at h
          simp only at h ⊢
          cases hpop : popTo? o stack with
          | some rest =>
            rw [hpop] at h
            exact ih h
          | none =>
            rw [hpop, popTo?_map] at h
            simp only [Bool.or_eq_false_iff, Option.isSome_map, Option.isSome_eq_false_iff,
              Option.isNone_iff_eq_none] at h
            rw [h.1]
            exact ih h.2

/-- When a bracket is hit, how many parts there were does not count. -/
theorem low_of_hits {m : Nat} {opened : List (Char × Nat)} (ho : Ordered m opened)
    {stack : List Char} {as : List Atom} (h : hits (opened.map Prod.fst) stack as = true)
    (d d' : Nat) : low d opened stack as = low d' opened stack as ∧ low d opened stack as ≤ m := by
  induction as generalizing stack with
  | nil => cases h
  | cons a as ih =>
    cases a with
    | literal inner => exact ih h
    | char c =>
      rw [hits] at h
      rw [low, low]
      split
      · next hc =>
        rw [if_pos hc] at h
        exact ih h
      · next hc =>
        rw [if_neg hc] at h
        cases hopener : openerOf? c with
        | none =>
          rw [hopener] at h
          exact ih h
        | some o =>
          rw [hopener] at h
          simp only at h ⊢
          cases hpop : popTo? o stack with
          | some rest =>
            rw [hpop] at h
            exact ih h
          | none =>
            rw [hpop, popTo?_map] at h
            cases hfound : lastOpen? o opened with
            | some x =>
              obtain ⟨n, before⟩ := x
              obtain ⟨hn, hbefore⟩ := ho.lastOpen? hfound
              exact ⟨rfl, Nat.le_trans (low_le hbefore (Nat.le_refl n) _ _) hn⟩
            | none =>
              rw [hfound] at h
              exact ih h

theorem popTo?_append (o c : Char) (stack : List Char) :
    popTo? o (stack ++ [c]) =
      (match popTo? o stack with
        | some rest => some (rest ++ [c])
        | none => if c = o then some [] else none) := by
  induction stack with
  | nil => rfl
  | cons d stack ih =>
    rw [List.cons_append, popTo?, popTo?]
    split
    · rfl
    · exact ih

/-- A bracket that was just opened may be counted on either side. -/
theorem low_opened (d : Nat) (c : Char) (opened : List (Char × Nat)) (stack : List Char)
    (as : List Atom) : low d ((c, d) :: opened) stack as = low d opened (stack ++ [c]) as := by
  induction as generalizing stack with
  | nil => rfl
  | cons a as ih =>
    cases a with
    | literal inner => exact ih stack
    | char e =>
      rw [low, low]
      split
      · exact ih (e :: stack)
      · cases ho : openerOf? e with
        | none => exact ih stack
        | some o =>
          simp only [popTo?_append]
          cases hpop : popTo? o stack with
          | some rest => exact ih rest
          | none =>
            simp only [lastOpen?]
            by_cases hc : c = o
            · simp [hc]
            · simp only [if_neg hc]
              cases lastOpen? o opened with
              | some x => rfl
              | none => exact ih stack

/-- A text before the first of some parts. -/
def glue (cs : List Char) : List (List Char) → List (List Char)
  | [] => [cs]
  | part :: parts => (cs ++ part) :: parts

theorem glue_prepend (cs : List Char) (a : Atom) (parts : List (List Atom)) :
    glue cs ((prepend a parts).map textOf) = glue (cs ++ a.text) (parts.map textOf) := by
  cases parts with
  | nil => simp [prepend, glue]
  | cons part parts => simp [prepend, glue]

/-- What the scanner makes of its parts and of what is to come: the latest `k`
cuts are taken back. -/
def settled (cut : Cut) (k : Nat) (parts : List (List Char)) : List (List Char) :=
  ((cut.finished.drop k).map List.reverse).reverse ++
    glue (cut.current ++ (cut.finished.take k).flatMap (',' :: ·)).reverse parts

/-- A character that neither opens nor closes nor cuts joins the current part. -/
theorem settled_push (cut : Cut) (k : Nat) (a : Atom) (parts : List (List Atom)) :
    settled { cut with current := a.text.reverse ++ cut.current } k (parts.map textOf) =
      settled cut k ((prepend a parts).map textOf) := by
  simp only [settled, glue_prepend, List.append_assoc, List.reverse_append, List.reverse_reverse]

theorem settled_zero (cut : Cut) (parts : List (List Char)) :
    settled cut 0 parts = (cut.finished.map List.reverse).reverse ++ glue cut.current.reverse parts := by
  simp [settled]

theorem glue_nil {parts : List (List Char)} (h : parts ≠ []) : glue [] parts = parts := by
  cases parts with
  | nil => exact absurd rfl h
  | cons part parts => rfl

/-- A comma begins a part, which is joined to the one before if a cut there is
taken back. -/
theorem settled_comma (cut : Cut) (k : Nat) (parts : List (List Char)) :
    settled { cut with finished := cut.current :: cut.finished, current := [] } (k + 1) parts =
      settled { cut with current := ',' :: cut.current } k parts := by
  simp [settled]

/-- Closing a bracket takes back cuts, and a bracket closed later may take back
more. -/
theorem settled_close (cut : Cut) (j k : Nat) (before : List (Char × Nat))
    (parts : List (List Char)) :
    settled { mend j cut with opened := before } k parts = settled cut (j + k) parts := by
  rw [mend_eq]
  simp only [settled, List.drop_drop, List.append_assoc, ← List.flatMap_append]
  rw [List.take_add]

/-! ## One atom -/

/-- What the scanner will give at the end, said with the cuts that are still to come. -/
def outlook (cut : Cut) (as : List Atom) : List (List Char) :=
  settled cut (cut.finished.length - low cut.finished.length cut.opened [] as)
    ((cuts (cut.opened.map Prod.fst) as).map textOf)

section Outlook

variable {cut : Cut} {c : Char} {as : List Atom}

theorem outlook_nil (cut : Cut) : outlook cut [] = cut.finish := by
  rw [outlook, low, Nat.sub_self, settled_zero]
  simp [finish, cuts, glue]

/-- An atom that changes neither the cuts nor the open brackets joins the current part. -/
theorem outlook_plain {a : Atom} (hcomma : a ≠ .char ',')
    (hpushed : pushed (cut.opened.map Prod.fst) a = cut.opened.map Prod.fst)
    (hlow : low cut.finished.length cut.opened [] (a :: as) = low cut.finished.length cut.opened [] as) :
    outlook { cut with current := a.text.reverse ++ cut.current } as = outlook cut (a :: as) := by
  rw [outlook, outlook, settled_push, cuts, if_neg (fun hc => hcomma hc.1), hpushed, hlow]

/-- A comma cuts, if no bracket that is open there is still to be closed; else the cut will be
taken back. -/
theorem outlook_comma (h : Ordered cut.finished.length cut.opened) :
    outlook { cut with finished := cut.current :: cut.finished, current := [] } as =
      outlook cut (.char ',' :: as) := by
  have hlow : low cut.finished.length cut.opened [] (.char ',' :: as) =
      low cut.finished.length cut.opened [] as := rfl
  rw [outlook, outlook, hlow, cuts, List.length_cons]
  cases hhits : hits (cut.opened.map Prod.fst) [] as with
  | false =>
    have hne : (cuts (cut.opened.map Prod.fst) as).map textOf ≠ [] := by simpa using cuts_ne_nil _ as
    rw [low_of_not_hits hhits, low_of_not_hits hhits, Nat.sub_self, Nat.sub_self, settled_zero, settled_zero,
      if_pos ⟨rfl, rfl⟩]
    simp only [List.map_cons, textOf_nil, List.reverse_cons, List.reverse_nil, glue_nil hne]
    simp [glue]
  | true =>
    obtain ⟨hsame, hle⟩ := low_of_hits h hhits (cut.finished.length + 1) cut.finished.length
    rw [hsame] at hle ⊢
    rw [Nat.succ_sub hle, settled_comma, if_neg (by simp)]
    exact settled_push cut _ (.char ',') _

/-- An opening bracket is counted among those of the scanner. -/
theorem outlook_open (hopen : isOpener c = true) :
    outlook { cut.push c with opened := (c, cut.finished.length) :: cut.opened } as =
      outlook cut (.char c :: as) := by
  have hcomma : (Atom.char c) ≠ .char ',' := by
    rintro ⟨⟩
    cases hopen
  have hlow : low cut.finished.length cut.opened [] (.char c :: as) =
      low cut.finished.length cut.opened [c] as := by
    rw [low, if_pos hopen]
  have hpushed : pushed (cut.opened.map Prod.fst) (.char c) = c :: cut.opened.map Prod.fst := by
    rw [pushed, if_pos hopen]
  show settled { cut with current := (Atom.char c).text.reverse ++ cut.current, opened := _ }
    (cut.finished.length - low cut.finished.length ((c, cut.finished.length) :: cut.opened) [] as) _ = _
  rw [outlook, low_opened, hlow, cuts, if_neg (fun hc => hcomma hc.1), hpushed, ← settled_push]
  rfl

/-- A closing bracket without its opening one is text. -/
theorem outlook_unopened (hcomma : c ≠ ',') (hopen : isOpener c = false)
    (hfound : (openerOf? c).bind (fun o => lastOpen? o cut.opened) = none) :
    outlook (cut.push c) as = outlook cut (.char c :: as) := by
  refine outlook_plain (a := .char c) (fun heq => hcomma (Atom.char.inj heq)) ?_ ?_
  · rw [pushed, hopen, if_neg (by decide)]
    cases ho : openerOf? c with
    | none => rfl
    | some o =>
      rw [ho, Option.bind_some] at hfound
      rw [Option.bind_some, popTo?_map, hfound]
      rfl
  · rw [low, hopen, if_neg (by decide)]
    cases ho : openerOf? c with
    | none => rfl
    | some o =>
      rw [ho, Option.bind_some] at hfound
      simp only [popTo?, hfound]

theorem length_close {n : Nat} (hn : n ≤ cut.finished.length) (c : Char) (before : List (Char × Nat)) :
    (cut.close c n before).finished.length = n := by
  rw [close, mend_eq]
  simp only [push, List.length_drop]
  omega

/-- A closing bracket takes back the cuts behind its opening one. -/
theorem outlook_close (h : Ordered cut.finished.length cut.opened) (hcomma : c ≠ ',')
    (hopen : isOpener c = false) {o : Char} (ho : openerOf? c = some o) {n : Nat}
    {before : List (Char × Nat)} (hlast : lastOpen? o cut.opened = some (n, before)) :
    outlook (cut.close c n before) as = outlook cut (.char c :: as) := by
  obtain ⟨hn, hbefore⟩ := h.lastOpen? hlast
  have hlow : low cut.finished.length cut.opened [] (.char c :: as) = low n before [] as := by
    rw [low, hopen, if_neg (by decide), ho]
    simp only [popTo?, hlast]
  have hpushed : pushed (cut.opened.map Prod.fst) (.char c) = before.map Prod.fst := by
    rw [pushed, hopen, if_neg (by decide), ho, Option.bind_some, popTo?_map, hlast]
    rfl
  have hopened : (cut.close c n before).opened = before := rfl
  have hless := low_le hbefore (Nat.le_refl n) [] as
  have hcount : cut.finished.length - n + (n - low n before [] as) =
      cut.finished.length - low n before [] as := by omega
  rw [outlook, outlook, length_close hn, hopened, hlow, cuts,
    if_neg (fun hc => hcomma (Atom.char.inj hc.1)), hpushed, close, settled_close, ← settled_push, hcount]
  rfl

/-- The open brackets stay in order, and no atom changes what the scanner will give. -/
theorem step_outlook (h : Ordered cut.finished.length cut.opened) (a : Atom) (as : List Atom) :
    Ordered (cut.step a).finished.length (cut.step a).opened ∧
      outlook (cut.step a) as = outlook cut (a :: as) := by
  cases a with
  | literal inner => exact ⟨h, outlook_plain (by simp) rfl rfl⟩
  | char c =>
    rw [step]
    by_cases hcomma : c = ','
    · subst hcomma
      rw [if_pos rfl]
      exact ⟨h.mono (Nat.le_succ _), outlook_comma h⟩
    · rw [if_neg hcomma]
      cases hopen : isOpener c with
      | true =>
        rw [if_pos rfl]
        refine ⟨⟨List.pairwise_cons.2 ⟨h.2, h.1⟩, ?_⟩, outlook_open hopen⟩
        exact List.forall_mem_cons.2 ⟨Nat.le_refl _, h.2⟩
      | false =>
        rw [if_neg (by decide)]
        cases hfound : (openerOf? c).bind fun o => lastOpen? o cut.opened with
        | none => exact ⟨h, outlook_unopened hcomma hopen hfound⟩
        | some found =>
          obtain ⟨n, before⟩ := found
          obtain ⟨o, ho, hlast⟩ := Option.bind_eq_some_iff.1 hfound
          obtain ⟨hn, hbefore⟩ := h.lastOpen? hlast
          refine ⟨?_, outlook_close h hcomma hopen ho hlast⟩
          rw [length_close hn]
          exact hbefore

end Outlook

/-- What the scanner gives, from any point on. -/
theorem finish_foldl {cut : Cut} (h : Ordered cut.finished.length cut.opened) (as : List Atom) :
    (as.foldl step cut).finish = settled cut
      (cut.finished.length - low cut.finished.length cut.opened [] as)
      ((cuts (cut.opened.map Prod.fst) as).map textOf) := by
  show (as.foldl step cut).finish = outlook cut as
  induction as generalizing cut with
  | nil => exact (outlook_nil cut).symm
  | cons a as ih =>
    obtain ⟨hordered, hsame⟩ := step_outlook h a as
    rw [List.foldl_cons, ih hordered, hsame]

end Cut

/-- The parts of a list are those between the commas that cut. -/
theorem splitTopLevel_eq (cs : List Char) :
    splitTopLevel cs = (cuts [] (atoms cs)).map textOf := by
  have hstart : Cut.Ordered Cut.start.finished.length Cut.start.opened :=
    ⟨List.Pairwise.nil, by simp [Cut.start]⟩
  have h := Cut.finish_foldl hstart (atoms cs)
  have hne : (cuts [] (atoms cs)).map textOf ≠ [] := by simpa using cuts_ne_nil [] (atoms cs)
  rw [splitTopLevel, h]
  show Cut.settled Cut.start (0 - _) _ = _
  rw [Nat.zero_sub, Cut.settled_zero]
  exact Cut.glue_nil hne

end Field
end JobPipeline
