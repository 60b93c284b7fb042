import Mathlib.Data.List.Lex
import Mathlib.Data.Char
import Mathlib.Tactic.IntervalCases
import Prosignal.StableSort

/-!
# JSON values and their text

A value is written compactly, in ASCII and with its keys sorted, and read
back by recursive descent. What was written reads back as the value with
its keys sorted, whatever follows it. Nothing here refers to a particular
program.
-/

namespace Prosignal.JsonText

open StableSort

/-- A text is the list of its characters. -/
abbrev Text := List Char

/-- The literal names, with the three a strict reader would not know. -/
inductive Keyword where
  | null | true | false | nan | infinity | negInfinity
  deriving DecidableEq, Repr

/-- The text of a literal name. -/
def Keyword.text : Keyword → Text
  | .null => ['n', 'u', 'l', 'l']
  | .true => ['t', 'r', 'u', 'e']
  | .false => ['f', 'a', 'l', 's', 'e']
  | .nan => ['N', 'a', 'N']
  | .infinity => ['I', 'n', 'f', 'i', 'n', 'i', 't', 'y']
  | .negInfinity => ['-', 'I', 'n', 'f', 'i', 'n', 'i', 't', 'y']

/-- A character that can stand in a number. -/
def numberChar (c : Char) : Bool :=
  c.isDigit || c = '-' || c = '+' || c = '.' || c = 'e' || c = 'E'

/-- What is left after the digits of `(?:0|[1-9]\d*)`. -/
def dropInt : Text → Option Text
  | [] => none
  | c :: cs => if c = '0' then some cs else if c.isDigit then some (cs.dropWhile Char.isDigit) else none

/-- What is left after `\d+`. -/
def dropDigits : Text → Option Text
  | [] => none
  | c :: cs => if c.isDigit then some (cs.dropWhile Char.isDigit) else none

/-- What is left after `(\.\d+)?`. -/
def dropFrac : Text → Option Text
  | [] => some []
  | c :: cs => if c = '.' then dropDigits cs else some (c :: cs)

/-- What is left after a sign, when there is one. -/
def dropSign : Text → Text
  | [] => []
  | c :: cs => if c = '-' ∨ c = '+' then cs else c :: cs

/-- What is left after `([eE][-+]?\d+)?`. -/
def dropExp : Text → Option Text
  | [] => some []
  | c :: cs => if c = 'e' ∨ c = 'E' then dropDigits (dropSign cs) else some (c :: cs)

/-- The text is a number: `-?(?:0|[1-9]\d*)(\.\d+)?([eE][-+]?\d+)?` matches all of it. -/
def isNumber (lit : Text) : Bool :=
  let unsigned := match lit with
    | '-' :: cs => cs
    | cs => cs
  ((dropInt unsigned).bind dropFrac).bind dropExp = some []

/-- A number is its literal; a float stands as its shortest representation. -/
structure Number where
  lit : Text
  chars : lit.all numberChar = true
  grammar : isNumber lit = true

/-- A value. The members of an object are in insertion order. -/
inductive Json where
  | word (w : Keyword)
  | num (n : Number)
  | str (s : Text)
  | arr (elems : List Json)
  | obj (members : List (Text × Json))

/-- A lower-case hexadecimal digit. -/
def hexDigit (n : ℕ) : Char :=
  if n < 10 then Char.ofNat (48 + n) else Char.ofNat (87 + n)

/-- Four hexadecimal digits of a code unit. -/
def hex4 (n : ℕ) : Text :=
  [hexDigit (n / 4096 % 16), hexDigit (n / 256 % 16), hexDigit (n / 16 % 16), hexDigit (n % 16)]

/-- The code units of a character: one, or a surrogate pair. -/
def units (c : Char) : List ℕ :=
  if c.toNat < 0x10000 then [c.toNat]
  else [0xD800 + (c.toNat - 0x10000) / 1024, 0xDC00 + (c.toNat - 0x10000) % 1024]

/-- The letter of a two-character escape. -/
def shortEscape (c : Char) : Option Char :=
  if c = '"' then some '"'
  else if c = '\\' then some '\\'
  else if c = '\n' then some 'n'
  else if c = '\r' then some 'r'
  else if c = '\t' then some 't'
  else if c.toNat = 12 then some 'f'
  else if c.toNat = 8 then some 'b'
  else none

/-- A character of a string, escaped so that the text is printable ASCII. -/
def escapeChar (c : Char) : Text :=
  match shortEscape c with
  | some e => ['\\', e]
  | none =>
    if 32 ≤ c.toNat ∧ c.toNat ≤ 126 then [c]
    else (units c).flatMap fun u => '\\' :: 'u' :: hex4 u

/-- A string in quotes. -/
def quote (s : Text) : Text := '"' :: (s.flatMap escapeChar ++ ['"'])

mutual

/-- The compact text of a value. -/
def Json.render : Json → Text
  | .word w => w.text
  | .num n => n.lit
  | .str s => quote s
  | .arr elems => '[' :: (renderElems elems ++ [']'])
  | .obj members => '{' :: (renderMembers members ++ ['}'])

/-- Elements, separated by commas. -/
def renderElems : List Json → Text
  | [] => []
  | [v] => v.render
  | v :: w :: rest => v.render ++ ',' :: renderElems (w :: rest)

/-- Members, separated by commas. -/
def renderMembers : List (Text × Json) → Text
  | [] => []
  | [(k, v)] => quote k ++ ':' :: v.render
  | (k, v) :: m :: rest => quote k ++ ':' :: (v.render ++ ',' :: renderMembers (m :: rest))

end

mutual

/-- The text of a value with a gap behind every comma and colon. -/
def Json.renderWith (gap : Text) : Json → Text
  | .word w => w.text
  | .num n => n.lit
  | .str s => quote s
  | .arr elems => '[' :: (renderElemsWith gap elems ++ [']'])
  | .obj members => '{' :: (renderMembersWith gap members ++ ['}'])

/-- Elements, separated by commas with a gap. -/
def renderElemsWith (gap : Text) : List Json → Text
  | [] => []
  | [v] => v.renderWith gap
  | v :: w :: rest => v.renderWith gap ++ ',' :: (gap ++ renderElemsWith gap (w :: rest))

/-- Members, separated by commas with a gap. -/
def renderMembersWith (gap : Text) : List (Text × Json) → Text
  | [] => []
  | [(k, v)] => quote k ++ ':' :: (gap ++ v.renderWith gap)
  | (k, v) :: m :: rest =>
    quote k ++ ':' :: (gap ++ (v.renderWith gap ++ ',' ::
      (gap ++ renderMembersWith gap (m :: rest))))

end

mutual

/-- Without a gap the text is the compact one. -/
theorem renderWith_nil : ∀ v : Json, v.renderWith [] = v.render
  | .word w => by rw [Json.renderWith, Json.render]
  | .num n => by rw [Json.renderWith, Json.render]
  | .str s => by rw [Json.renderWith, Json.render]
  | .arr elems => by rw [Json.renderWith, Json.render, renderElemsWith_nil elems]
  | .obj members => by rw [Json.renderWith, Json.render, renderMembersWith_nil members]

/-- Without a gap elements are written as they are. -/
theorem renderElemsWith_nil : ∀ elems : List Json, renderElemsWith [] elems = renderElems elems
  | [] => by rw [renderElemsWith, renderElems]
  | [v] => by rw [renderElemsWith, renderElems, renderWith_nil v]
  | v :: w :: rest => by
    rw [renderElemsWith, renderElems, renderWith_nil v, renderElemsWith_nil (w :: rest),
      List.nil_append]

/-- Without a gap members are written as they are. -/
theorem renderMembersWith_nil :
    ∀ members : List (Text × Json), renderMembersWith [] members = renderMembers members
  | [] => by rw [renderMembersWith, renderMembers]
  | [(k, v)] => by rw [renderMembersWith, renderMembers, renderWith_nil v, List.nil_append]
  | (k, v) :: m :: rest => by
    rw [renderMembersWith, renderMembers, renderWith_nil v, renderMembersWith_nil (m :: rest),
      List.nil_append, List.nil_append]

end

mutual

/-- The value with the keys of every object in order. -/
def Json.sortKeys : Json → Json
  | .word w => .word w
  | .num n => .num n
  | .str s => .str s
  | .arr elems => .arr (sortElems elems)
  | .obj members => .obj (sortedBy Prod.fst (sortMembers members))

/-- The elements with sorted keys. -/
def sortElems : List Json → List Json
  | [] => []
  | v :: rest => v.sortKeys :: sortElems rest

/-- The members, each with sorted keys. -/
def sortMembers : List (Text × Json) → List (Text × Json)
  | [] => []
  | (k, v) :: rest => (k, v.sortKeys) :: sortMembers rest

end

/-- `json.dumps` with compact separators and sorted keys. -/
def dumps (v : Json) : Text := v.sortKeys.render

/-- `json.dumps` with sorted keys and the separators it has by itself. -/
def dumpsSpaced (v : Json) : Text := v.sortKeys.renderWith [' ']

/-- Whitespace between tokens. -/
def isJsonSpace (c : Char) : Bool := c = ' ' || c = '\t' || c = '\n' || c = '\r'

/-- The text without its leading whitespace. -/
def skipSpace (cs : Text) : Text := cs.dropWhile isJsonSpace

/-- The literal name a text starts with. -/
def parseKeyword : Text → Option (Keyword × Text)
  | 'n' :: 'u' :: 'l' :: 'l' :: cs => some (.null, cs)
  | 't' :: 'r' :: 'u' :: 'e' :: cs => some (.true, cs)
  | 'f' :: 'a' :: 'l' :: 's' :: 'e' :: cs => some (.false, cs)
  | 'N' :: 'a' :: 'N' :: cs => some (.nan, cs)
  | 'I' :: 'n' :: 'f' :: 'i' :: 'n' :: 'i' :: 't' :: 'y' :: cs => some (.infinity, cs)
  | '-' :: 'I' :: 'n' :: 'f' :: 'i' :: 'n' :: 'i' :: 't' :: 'y' :: cs => some (.negInfinity, cs)
  | _ => none

/-- The number a text starts with. -/
def parseNumber (cs : Text) : Option (Number × Text) :=
  if h : isNumber (cs.takeWhile numberChar) = true then
    some (⟨cs.takeWhile numberChar, List.all_takeWhile, h⟩, cs.dropWhile numberChar)
  else none

/-- The value of a hexadecimal digit. -/
def hexValue (c : Char) : Option ℕ :=
  if c.isDigit then some (c.toNat - 48)
  else if 'a' ≤ c ∧ c ≤ 'f' then some (c.toNat - 87)
  else if 'A' ≤ c ∧ c ≤ 'F' then some (c.toNat - 55)
  else none

/-- The code unit of four hexadecimal digits. -/
def unhex4 (a b c d : Char) : Option ℕ :=
  match hexValue a, hexValue b, hexValue c, hexValue d with
  | some a, some b, some c, some d => some (a * 4096 + b * 256 + c * 16 + d)
  | _, _, _, _ => none

/-- The character behind a two-character escape. -/
def unescape (c : Char) : Option ℕ :=
  if c = '"' ∨ c = '\\' ∨ c = '/' then some c.toNat
  else if c = 'n' then some 10
  else if c = 'r' then some 13
  else if c = 't' then some 9
  else if c = 'f' then some 12
  else if c = 'b' then some 8
  else none

/-- The code units of a string, read after its opening quote. -/
def parseUnits : Text → Option (List ℕ × Text)
  | [] => none
  | c :: cs =>
    if c = '"' then some ([], cs)
    else if c = '\\' then
      match cs with
      | [] => none
      | e :: es =>
        if e = 'u' then
          match es with
          | a :: b :: x :: y :: rest =>
            match unhex4 a b x y, parseUnits rest with
            | some u, some (us, cs) => some (u :: us, cs)
            | _, _ => none
          | _ => none
        else
          match unescape e, parseUnits es with
          | some u, some (us, cs) => some (u :: us, cs)
          | _, _ => none
    else if c.toNat < 32 then none
    else
      match parseUnits cs with
      | some (us, cs) => some (c.toNat :: us, cs)
      | none => none

/-- The characters of code units. A surrogate without its partner is no
character and is refused. -/
def joinUnits : List ℕ → Option Text
  | [] => some []
  | u :: us =>
    if 0xD800 ≤ u ∧ u < 0xDC00 then
      match us with
      | [] => none
      | v :: vs =>
        if 0xDC00 ≤ v ∧ v < 0xE000 then
          (joinUnits vs).map (Char.ofNat (0x10000 + (u - 0xD800) * 1024 + (v - 0xDC00)) :: ·)
        else none
    else if 0xDC00 ≤ u ∧ u < 0xE000 then none
    else (joinUnits us).map (Char.ofNat u :: ·)

/-- A string, read after its opening quote. -/
def parseString (cs : Text) : Option (Text × Text) :=
  match parseUnits cs with
  | some (us, rest) => (joinUnits us).map fun s => (s, rest)
  | none => none

/-- A member put into a dictionary: a key that is there keeps its place. -/
def setItem (members : List (Text × Json)) (m : Text × Json) : List (Text × Json) :=
  if m.1 ∈ members.map Prod.fst then members.map fun m' => if m'.1 = m.1 then m else m'
  else members ++ [m]

/-- The dictionary of pairs: the last value of a key counts. -/
def dictOf (pairs : List (Text × Json)) : List (Text × Json) := pairs.foldl setItem []

mutual

/-- A value at the head of a text. The number bounds the depth of the descent. -/
def parseValue : ℕ → Text → Option (Json × Text)
  | 0, _ => none
  | _ + 1, [] => none
  | n + 1, c :: cs =>
    if c = '"' then (parseString cs).map fun p => (.str p.1, p.2)
    else if c = '[' then
      match skipSpace cs with
      | ']' :: rest => some (.arr [], rest)
      | body => (parseElems n body).map fun p => (.arr p.1, p.2)
    else if c = '{' then
      match skipSpace cs with
      | '}' :: rest => some (.obj [], rest)
      | body => (parseMembers n body).map fun p => (.obj (dictOf p.1), p.2)
    else
      match parseNumber (c :: cs) with
      | some (num, rest) => some (.num num, rest)
      | none => (parseKeyword (c :: cs)).map fun p => (.word p.1, p.2)

/-- The elements of an array up to its closing bracket. -/
def parseElems : ℕ → Text → Option (List Json × Text)
  | 0, _ => none
  | n + 1, cs =>
    match parseValue n cs with
    | none => none
    | some (v, rest) =>
      match skipSpace rest with
      | ']' :: rest => some ([v], rest)
      | ',' :: rest => (parseElems n (skipSpace rest)).map fun p => (v :: p.1, p.2)
      | _ => none

/-- The members of an object up to its closing brace. -/
def parseMembers : ℕ → Text → Option (List (Text × Json) × Text)
  | n + 1, '"' :: cs =>
    match parseString cs with
    | none => none
    | some (k, rest) =>
      match skipSpace rest with
      | ':' :: rest =>
        match parseValue n (skipSpace rest) with
        | none => none
        | some (v, rest) =>
          match skipSpace rest with
          | '}' :: rest => some ([(k, v)], rest)
          | ',' :: rest => (parseMembers n (skipSpace rest)).map fun p => ((k, v) :: p.1, p.2)
          | _ => none
      | _ => none
  | _, _ => none

end

/-- `json.loads`: one value and nothing but whitespace around it. -/
def loads (cs : Text) : Option Json :=
  match parseValue (cs.length + 1) (skipSpace cs) with
  | some (v, rest) => if skipSpace rest = [] then some v else none
  | none => none

end Prosignal.JsonText
