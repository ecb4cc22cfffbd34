import JobPipeline.Source.Rule
import JobPipeline.Text.Segment

/-
Readers, and what a failed reading expected.

A reader takes from the front of a text or refuses; beside that it keeps the
furthest place at which a rule was refused and the rules that were refused
there.  Nothing in a reader looks at that record: it only words the error.
-/
namespace JobPipeline
namespace Source

/-- The furthest place where rules were refused, as the number of characters
left behind it, and those rules. -/
structure Furthest where
  left : Nat
  rules : List Rule
deriving DecidableEq, Repr

namespace Furthest

/-- How many rules are recorded for a place. -/
def count (f : Furthest) (here : Nat) : Nat := if here = f.left then f.rules.length else 0

/-- Records that a rule was refused at a place, when `before` rules were recorded
there as it began.  If exactly one rule inside it was refused at the same place,
that one says more and stays alone; other refusals inside it give way. -/
def refuse (f : Furthest) (rule : Rule) (here before : Nat) : Furthest :=
  if f.count here = before + 1 then f
  else if here = f.left then { f with rules := f.rules.take before ++ [rule] }
  else if here < f.left then ⟨here, [rule]⟩
  else f

/-- The rules in the order in which a message names them, each once. -/
def expected (f : Furthest) : List Rule := Rule.all.filter fun r => f.rules.contains r

end Furthest

/-- Reads a value from the front of a text and gives back the rest. -/
def Reader (α : Type) : Type := List Char → Furthest → Option (α × List Char) × Furthest

namespace Reader

variable {α β : Type}

def done (a : α) : Reader α := fun cs f => (some (a, cs), f)

def andThen (first : Reader α) (next : α → Reader β) : Reader β := fun cs f =>
  match first cs f with
  | (some (a, rest), f) => next a rest f
  | (none, f) => (none, f)

instance : Monad Reader where
  pure := done
  bind := andThen

/-- The second reader starts where the first one did, if that refuses. -/
def orElse (first second : Reader α) : Reader α := fun cs f =>
  match first cs f with
  | (some result, f) => (some result, f)
  | (none, f) => second cs f

def optional (reader : Reader α) : Reader (Option α) :=
  orElse (andThen reader fun a => done (some a)) (done none)

/-- A reader that is a function of the text alone. -/
def scanning (scan : List Char → Option (α × List Char)) : Reader α := fun cs f => (scan cs, f)

def mark (m : String) : Reader Unit :=
  scanning fun cs => (Text.afterMark? m.toList cs).map fun rest => ((), rest)

/-- Reads as a named rule, whose refusal is recorded. -/
def rule (r : Rule) (reader : Reader α) : Reader α := fun cs f =>
  let here := cs.length
  let before := f.count here
  match reader cs f with
  | (some result, f) => (some result, f)
  | (none, f) => (none, f.refuse r here before)

/-- Reads with the same reader as often as it accepts, at most `fuel` times. -/
def repeating (reader : Reader α) : (fuel : Nat) → Reader (List α)
  | 0 => done []
  | fuel + 1 =>
    orElse
      (andThen reader fun a => andThen (repeating reader fuel) fun as => done (a :: as))
      (done [])

/-- Reads with the same reader as often as it accepts, and tries once more: a
refusal at the end of the text is recorded too.  A reader that takes at least one
character cannot accept more often than there are characters. -/
def many (reader : Reader α) : Reader (List α) := fun cs f =>
  repeating reader (cs.length + 1) cs f

def left : Reader Nat := fun cs f => (some (cs.length, cs), f)

end Reader
end Source
end JobPipeline
