import Pkix.Base64
import Pkix.Error
import Pkix.Bytes

/-!
# Armoured text

An armoured text holds octets to the base 64 between two marker lines that carry a label.

* `Pem.encode`: lines of 64 characters, every line ended by CR LF.
* `Pem.decode`: the first block of a text. Blanks between the characters do not count; lines before
  an empty line are headers.
-/

namespace Pkix

/-- Octets, `contents`, with a `label`. -/
structure Pem where
  label : String
  contents : Bytes
deriving DecidableEq

namespace Pem

/-- The text of `p` with both markers, every line ended by CR LF. -/
def encode (p : Pem) : String :=
  let lines := (chunks 64 (Base64.encode p.contents)).flatMap (· ++ ['\r', '\n'])
  "-----BEGIN " ++ p.label ++ "-----\r\n" ++ String.ofList lines ++ "-----END " ++ p.label ++
    "-----\r\n"

/-- Looks for a marker of which `pending` is still to come, after the characters `seen`, which are
in reverse. Answers what stands before the marker and what follows it. The character that breaks
off a partial match begins no new one. -/
def cutFrom (marker : List Char) : (pending seen text : List Char) → Option (List Char × List Char)
  | [], seen, text => some ((seen.drop marker.length).reverse, text)
  | _ :: _, _, [] => none
  | p :: pending, seen, c :: text =>
    if c = p then cutFrom marker pending (c :: seen) text
    else cutFrom marker marker (c :: seen) text
termination_by _ _ text => text.length

/-- What stands before the first `marker` and what follows it. -/
def cut (marker : String) (text : List Char) : Option (List Char × List Char) :=
  cutFrom marker.toList marker.toList [] text

/-- The `text` without the spaces, tabs and line ends at its start. -/
def skipLineSpace (text : List Char) : List Char :=
  text.dropWhile fun c => c == ' ' || c == '\t' || c == '\r' || c == '\n'

/-- The header lines and the data of a block, `body`. -/
def splitHeaders (body : List Char) : List Char × List Char :=
  match cut "\n\n" body with
  | some r => r
  | none =>
    match cut "\r\n\r\n" body with
    | some r => r
    | none => ([], body)

/-- The lines of a `text`; a line end at the very end begins no further line. -/
def lines (text : List Char) : List (List Char) :=
  match (text.splitOn '\n').reverse with
  | [] :: rest => rest.reverse
  | all => all.reverse

/-- The first block of a `text`, if there is one. Both markers carry the same label, which is not
empty. -/
def decode? (text : String) : Option Pem := do
  let (_, text) ← cut "-----BEGIN " text.toList
  let (label, text) ← cut "-----" text
  let (body, text) ← cut "-----END " (skipLineSpace text)
  let (closing, _) ← cut "-----" text
  let (headers, data) := splitHeaders body
  if label = [] ∨ label ≠ closing ∨ !(lines headers).all (·.contains ':') then none
  else
    let contents ← Base64.decode? (data.filter (!Text.isBlank ·))
    return ⟨String.ofList label, contents⟩

/-- The first block of a `text`. -/
def decode (text : String) : Except Error Pem :=
  match decode? text with
  | some p => .ok p
  | none => .error (.malformed .pemRules)

/-- The contents of a block `p` that carries the given `label`. -/
def require (p : Pem) (label : String) : Except Error Bytes :=
  if p.label = label then .ok p.contents
  else .error (.invalidInput (.pemLabel label p.label))

end Pem

end Pkix
