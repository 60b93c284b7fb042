import Mathlib.Algebra.Order.Field.Rat
import Prosignal.Contracts
import Prosignal.OrderedMatch

/-!
# The readers of a corporate action

`NseArchivesProvider.parse_action_ratio` and `parse_action_subject` read a
subject line with patterns of their own, and `CsvImportProvider` reads the ratio
from two columns. Factors are exact rationals. What Python's tables say of the
characters beyond ASCII is a parameter.
-/

namespace Prosignal.ActionReaders

open OrderedMatch Contracts

/-- The characters beyond ASCII. -/
structure Unicode where
  /-- The value of a decimal digit. -/
  digit : Char → Option ℕ
  space : Char → Bool
  /-- The character matches a small ASCII letter when case is ignored. -/
  folds : Char → Char → Bool
  lower : Char → List Char

variable (u : Unicode)

section Characters

def isAscii (c : Char) : Bool := decide (c.toNat < 128)

/-- The value of a character that `\d` matches. -/
def digitValue (c : Char) : Option ℕ :=
  if isAscii c then if 48 ≤ c.toNat ∧ c.toNat ≤ 57 then some (c.toNat - 48) else none
  else u.digit c

/-- `\d`. -/
def isDigit (c : Char) : Bool := (digitValue u c).isSome

/-- `\s`, and what `str.split` and `str.strip` take for white space. -/
def isSpace (c : Char) : Bool :=
  if isAscii c then decide (9 ≤ c.toNat ∧ c.toNat ≤ 13 ∨ 28 ≤ c.toNat ∧ c.toNat ≤ 32)
  else u.space c

/-- A small letter of a pattern matches a character, under `re.I`. -/
def sameLetter (letter c : Char) : Bool :=
  if isAscii c then decide (c.toLower = letter) else u.folds letter c

/-- `str.lower`. -/
def lower (text : List Char) : List Char :=
  text.flatMap fun c => if isAscii c then [c.toLower] else u.lower c

/-- `str.strip`. -/
def strip (text : List Char) : List Char :=
  ((text.dropWhile (isSpace u)).reverse.dropWhile (isSpace u)).reverse

/-- `str.split`, behind the letters of a word that has begun. -/
def wordsFrom (current : List Char) : List Char → List (List Char)
  | [] => if current = [] then [] else [current]
  | c :: rest =>
    if isSpace u c then
      if current = [] then wordsFrom [] rest else current :: wordsFrom [] rest
    else wordsFrom (current ++ [c]) rest

/-- `" ".join(text.split())`. -/
def squeeze (text : List Char) : List Char := [' '].intercalate (wordsFrom u [] text)

/-- `needle in text`. -/
def contains (needle : String) (text : List Char) : Bool := decide (needle.toList <:+: text)

end Characters

section Numbers

/-- A `ValueError` of `float`. -/
inductive ParseError where
  | valueError (text : List Char)
  deriving DecidableEq

/-- The number of some digits. -/
def digitsValue (digits : List Char) : ℕ :=
  digits.foldl (fun value c => value * 10 + (digitValue u c).getD 0) 0

/-- `float` of a text of digits and points. -/
def float (text : List Char) : Except ParseError ℚ :=
  let whole := text.takeWhile (isDigit u)
  match text.dropWhile (isDigit u) with
  | [] => if whole = [] then .error (.valueError text) else .ok (digitsValue u whole)
  | point :: fraction =>
    if point = '.' ∧ fraction.all (isDigit u) ∧ (whole ≠ [] ∨ fraction ≠ []) then
      .ok (digitsValue u whole + digitsValue u fraction / 10 ^ fraction.length)
    else .error (.valueError text)

end Numbers

section Patterns

/-- A word of a pattern. -/
def letters (text : String) : Pattern Char Unit := word (sameLetter u) text.toList

/-- `\s*`. -/
def spaces : Pattern Char (List Char) := many (isSpace u)

/-- One character, or none. -/
def optional (c : Char) : Pattern Char (Option Char) := maybe (one fun d => decide (d = c))

/-- `_NUM`: `(\d+(?:\.\d+)?)`. -/
def num : Pattern Char (List Char) := do
  let whole ← some1 (isDigit u)
  let fraction ← maybe do
    let point ← one fun c => decide (c = '.')
    let digits ← some1 (isDigit u)
    return point :: digits
  return whole ++ fraction.getD []

/-- `(?:rs\.?\s*)?`. -/
def currency : Pattern Char (Option Unit) := maybe do
  letters u "rs"
  let _ ← optional '.'
  let _ ← spaces u
  return ()

/-- `.`. -/
def anyChar (c : Char) : Bool := decide (c ≠ '\n')

/-- `_SPLIT_PATTERNS`, the first:
`split.*?from\s*(?:rs\.?\s*)?NUM.*?to\s*(?:rs\.?\s*)?NUM`. -/
def splitFromTo : Pattern Char (List Char × List Char) := do
  letters u "split"
  few anyChar
  letters u "from"
  let _ ← spaces u
  let _ ← currency u
  let old ← num u
  few anyChar
  letters u "to"
  let _ ← spaces u
  let _ ← currency u
  let new ← num u
  return (old, new)

/-- `NUM\s*[:/]\s*NUM`. -/
def ratio : Pattern Char (List Char × List Char) := do
  let first ← num u
  let _ ← spaces u
  let _ ← one fun c => decide (c = ':' ∨ c = '/')
  let _ ← spaces u
  let second ← num u
  return (first, second)

/-- A word, no digits, and a ratio: `split\D*NUM\s*[:/]\s*NUM` and its like. -/
def wordRatio (text : String) : Pattern Char (List Char × List Char) := do
  letters u text
  let _ ← many fun c => !isDigit u c
  ratio u

/-- `_SPLIT_PATTERNS`. -/
def splitPatterns : List (Pattern Char (List Char × List Char)) :=
  [splitFromTo u, wordRatio u "split"]

/-- `_BONUS_PATTERNS`, the second: `bonus.*?ratio\D*NUM\s*[:/]\s*NUM`. -/
def bonusInRatio : Pattern Char (List Char × List Char) := do
  letters u "bonus"
  few anyChar
  wordRatio u "ratio"

/-- `_BONUS_PATTERNS`. -/
def bonusPatterns : List (Pattern Char (List Char × List Char)) :=
  [wordRatio u "bonus", bonusInRatio u]

/-- `_RIGHTS_PATTERNS`. -/
def rightsPattern : Pattern Char (List Char × List Char) := wordRatio u "rights"

/-- `NseArchivesProvider._BONUS`: `bonus\s*(?:issue)?\s*(\d+)\s*:\s*(\d+)`. -/
def nseBonus : Pattern Char (List Char × List Char) := do
  letters u "bonus"
  let _ ← spaces u
  let _ ← maybe (letters u "issue")
  let _ ← spaces u
  let new ← some1 (isDigit u)
  let _ ← spaces u
  let _ ← one fun c => decide (c = ':')
  let _ ← spaces u
  let held ← some1 (isDigit u)
  return (new, held)

/-- `(?:rs\.?|re\.?)?`. -/
def nseCurrency : Pattern Char (Option Unit) := maybe <| either
  (do letters u "rs"; let _ ← optional '.'; return ())
  (do letters u "re"; let _ ← optional '.'; return ())

/-- `([\d.]+)`. -/
def amount : Pattern Char (List Char) := some1 fun c => isDigit u c || decide (c = '.')

/-- `NseArchivesProvider._SPLIT`: `from\s*(?:rs\.?|re\.?)?\s*([\d.]+)\s*/?-?\s*per\s*share\s*to\s*`
`(?:rs\.?|re\.?)?\s*([\d.]+)`. -/
def nseSplit : Pattern Char (List Char × List Char) := do
  letters u "from"
  let _ ← spaces u
  let _ ← nseCurrency u
  let _ ← spaces u
  let before ← amount u
  let _ ← spaces u
  let _ ← optional '/'
  let _ ← optional '-'
  let _ ← spaces u
  letters u "per"
  let _ ← spaces u
  letters u "share"
  let _ ← spaces u
  letters u "to"
  let _ ← spaces u
  let _ ← nseCurrency u
  let _ ← spaces u
  let after ← amount u
  return (before, after)

end Patterns

section Readers

/-- The kinds of action that a reader tells apart. -/
inductive ActionType where
  | unknown
  | split
  | bonus
  | rights
  | dividend
  | other
  deriving DecidableEq

/-- `parse_action_ratio`. -/
def parseActionRatio (subject : List Char) : Except ParseError (Option (ActionType × ℚ)) :=
  if subject = [] then .ok none
  else
    let text := strip u subject
    let splitRatio : Except ParseError (Option (ActionType × ℚ)) :=
      if contains "split" (lower u text) || contains "sub-division" (lower u text) then
        match search (nseSplit u) text with
        | none => .ok none
        | some (first, second) => do
          let before ← float u first
          let after ← float u second
          return if 0 < before ∧ 0 < after then some (.split, after / before) else none
      else .ok none
    match search (nseBonus u) text with
    | none => splitRatio
    | some (first, second) => do
      let new ← float u first
      let held ← float u second
      if 0 < held ∧ 0 ≤ new then return some (.bonus, held / (new + held)) else splitRatio

/-- Why `parse_action_subject` gives its factor. -/
inductive Why where
  | emptyDescription
  | faceValue (old new : ℚ)
  | bonus (new held : ℚ)
  | rights (first second : List Char)
  | dividend
  | unparsed (text : List Char)
  deriving DecidableEq

/-- What it gives. -/
abbrev Reading := ActionType × ℚ × Why

/-- A split, when both face values are positive and differ. -/
def readSplit (old new : ℚ) : Option Reading :=
  if 0 < old ∧ 0 < new ∧ (0 < new / old ∧ new / old < 1 ∨ 1 < new / old) then
    some (.split, new / old, .faceValue old new)
  else none

/-- A bonus, when both counts are positive. -/
def readBonus (new held : ℚ) : Option Reading :=
  if 0 < new ∧ 0 < held then some (.bonus, held / (held + new), .bonus new held) else none

/-- The patterns in turn, until one finds numbers that make a reading. -/
def firstReading (read : ℚ → ℚ → Option Reading) (text : List Char) :
    List (Pattern Char (List Char × List Char)) → Except ParseError (Option Reading)
  | [] => .ok none
  | pattern :: patterns =>
    match search pattern text with
    | none => firstReading read text patterns
    | some (first, second) => do
      let x ← float u first
      let y ← float u second
      match read x y with
      | some reading => return some reading
      | none => firstReading read text patterns

/-- `parse_action_subject`. -/
def parseActionSubject (subject : List Char) : Except ParseError Reading := do
  let text := squeeze u subject
  if text = [] then return (.unknown, 1, .emptyDescription)
  match ← firstReading u readSplit text (splitPatterns u) with
  | some reading => return reading
  | none =>
    match ← firstReading u readBonus text (bonusPatterns u) with
    | some reading => return reading
    | none =>
      match search (rightsPattern u) text with
      | some (first, second) => return (.rights, 1, .rights first second)
      | none =>
        if (search (letters u "dividend") text).isSome then return (.dividend, 1, .dividend)
        else return (.other, 1, .unparsed (text.take 80))

/-- A row of the corporate-action file; a ratio that is no number is absent. -/
structure CsvRow where
  symbol : Option String
  exDate : Option Date
  actionType : List Char
  ratioFrom : Option ℚ
  ratioTo : Option ℚ
  details : String := ""

/-- A quotient of two columns. -/
inductive Quotient where
  | number (value : ℚ)
  | infinite
  | negInfinite
  | missing
  deriving DecidableEq

/-- Division of two columns. -/
def divide : Option ℚ → Option ℚ → Quotient
  | some x, some y =>
    if y ≠ 0 then .number (x / y)
    else if 0 < x then .infinite
    else if x < 0 then .negInfinite
    else .missing
  | _, _ => .missing

/-- The factor of a row. -/
def CsvRow.factor (row : CsvRow) : Quotient :=
  let action := lower u (strip u row.actionType)
  if contains "bonus" action then
    divide row.ratioFrom (row.ratioFrom.bind fun x => row.ratioTo.map fun y => x + y)
  else if contains "split" action then divide row.ratioTo row.ratioFrom
  else .number 1

/-- A row that was loaded. -/
structure LoadedAction where
  symbol : String
  exDate : Date
  actionType : List Char
  ratio : ℚ
  rawDetails : String
  deriving DecidableEq

/-- A factor that is filled in where it is missing, and refused where it is implausible. -/
def Quotient.filled : Quotient → Option ℚ
  | .number value => if value ≤ 0 ∨ 1000 < value then none else some value
  | .missing => some 1
  | _ => none

/-- `DataError`: how many factors are implausible, and the first symbols. -/
structure DataError where
  implausible : ℕ
  symbols : List String
  deriving DecidableEq

/-- `load_corporate_actions`, of the rows of a file. -/
def loadCorporateActions (rows : List CsvRow) : Except DataError (List LoadedAction) :=
  let out := rows.filterMap fun row =>
    row.symbol.bind fun symbol => row.exDate.map fun exDate => (symbol, exDate, row)
  let bad := out.filter fun kept => (kept.2.2.factor u).filled.isNone
  if bad ≠ [] then .error ⟨bad.length, (bad.take 5).map Prod.fst⟩
  else .ok (out.map fun kept =>
    ⟨kept.1, kept.2.1, lower u (strip u kept.2.2.actionType),
      (kept.2.2.factor u).filled.getD 1, kept.2.2.details⟩)

end Readers

end Prosignal.ActionReaders
