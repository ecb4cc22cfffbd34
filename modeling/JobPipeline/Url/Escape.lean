import JobPipeline.Number.Numeral

/-
Characters of a URL that are written as the bytes of their UTF-8 form, each byte
as a percent sign and two hexadecimal digits.

Which characters stand for themselves depends on the part of the URL.  The
percent sign always does, so a text that is escaped already is not escaped
again (`escape_of_all`).
-/
namespace JobPipeline
namespace Url

/-- A digit of a byte, in upper case. -/
def byteDigit (n : Nat) : Char := Char.ofNat (if n < 10 then 48 + n else 55 + n)

def escapeByte (b : UInt8) : List Char :=
  ['%', byteDigit (b.toNat / 16), byteDigit (b.toNat % 16)]

/-- A text with all characters escaped that do not stand for themselves. -/
def escape (stands : Char → Bool) (cs : List Char) : List Char :=
  cs.flatMap fun c => if stands c then [c] else (String.utf8EncodeChar c).flatMap escapeByte

theorem escape_append (stands : Char → Bool) (cs ds : List Char) :
    escape stands (cs ++ ds) = escape stands cs ++ escape stands ds := by
  simp [escape]

theorem escape_of_all {stands : Char → Bool} {cs : List Char} (h : cs.all stands = true) :
    escape stands cs = cs := by
  induction cs with
  | nil => rfl
  | cons c cs ih =>
    simp only [List.all_cons, Bool.and_eq_true] at h
    rw [escape, List.flatMap_cons, if_pos h.1]
    exact congrArg (c :: ·) (ih h.2)

/-- The character whose number two hexadecimal digits write. -/
def escaped? (high low : Char) : Option Char :=
  match Numeral.hexValue? high, Numeral.hexValue? low with
  | some h, some l => some (Char.ofNat (16 * h + l))
  | _, _ => none

/-- A text with its escaped bytes as characters.  A percent sign without two
digits stays as it is. -/
def unescape : List Char → List Char
  | [] => []
  | '%' :: h :: l :: cs =>
    match escaped? h l with
    | some c => c :: unescape cs
    | none => '%' :: unescape (h :: l :: cs)
  | c :: cs => c :: unescape cs
termination_by cs => cs.length

/-! Characters that stand for themselves -/

/-- The printed characters of ASCII, the space among them. -/
def isPrinted (c : Char) : Bool := 32 ≤ c.toNat && c.toNat ≤ 126

def standsBut (others : String) (c : Char) : Bool := isPrinted c && !others.toList.contains c

def standsInPath : Char → Bool := standsBut " \"#<>?\x60\x7b\x7d"

def standsInQuery : Char → Bool := standsBut " \"#<>"

/-- In the query of a web address, quotes of either kind are escaped. -/
def standsInWebQuery : Char → Bool := standsBut " \"#<>'"

def standsInFragment : Char → Bool := standsBut " \"<>\x60"

end Url
end JobPipeline
