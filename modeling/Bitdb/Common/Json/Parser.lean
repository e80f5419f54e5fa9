import Bitdb.Base.Loops
import Bitdb.Utils.Coding
import Mathlib.Data.List.DropRight
import Mathlib.Data.Nat.Digits.Defs

/-! The parser of `tinyjson` (`bitdb/common/json/parser.h` and `parser.cpp`). Its calls nest up to a
depth and its endless loops take so many turns; beyond that a run is not finished. `isspace` and
`isdigit` know only ASCII, and `strtof64` is a parameter. Objects of `tinyjson`
(`bitdb/common/json/jobject.h` and `jobject.cpp`). The type of a `double` and what a stream prints
for it are parameters. The `int` that indexes a list does not overflow. -/

set_option autoImplicit false

namespace Bitdb.Json

section Characters

abbrev quote : Byte := 34
abbrev comma : Byte := 44
abbrev minus : Byte := 45
abbrev dot : Byte := 46
abbrev colon : Byte := 58
abbrev leftBracket : Byte := 91
abbrev backslash : Byte := 92
abbrev rightBracket : Byte := 93
abbrev leftBrace : Byte := 123
abbrev rightBrace : Byte := 125
abbrev newline : Byte := 10

abbrev nullText : List Byte := [110, 117, 108, 108]
abbrev trueText : List Byte := [116, 114, 117, 101]
abbrev falseText : List Byte := [102, 97, 108, 115, 101]
abbrev commentText : List Byte := [47, 47]

end Characters

/-- `JObject`. A `dict_t` is the list of its entries, in the order of their keys. -/
inductive JObject (Double : Type) where
  | null
  | bool (value : Bool)
  | int (value : Int32)
  | double (value : Double)
  | str (value : List Byte)
  | list (items : List (JObject Double))
  | dict (entries : List (List Byte × JObject Double))
  deriving Repr

/-- `dict[key] = value` on a `std::map`. -/
def insertEntry {α : Type} (key : List Byte) (value : α) :
    List (List Byte × α) → List (List Byte × α)
  | [] => [(key, value)]
  | (other, held) :: entries =>
    if key < other then (key, value) :: (other, held) :: entries
    else if key = other then (key, value) :: entries
    else (other, held) :: insertEntry key value entries

/-- The digits a stream prints for a number that is not negative. -/
def decimal (value : Nat) : List Byte :=
  if value = 0 then [48]
  else (Nat.digits 10 value).reverse.map fun digit => UInt8.ofNat (48 + digit)

def printInt (value : Int32) : List Byte :=
  if value.toInt < 0 then minus :: decimal value.toInt.natAbs else decimal value.toInt.natAbs

namespace JObject

variable {Double : Type}

/-! `JObject::ToString`. -/

mutual

def toString (printDouble : Double → List Byte) : JObject Double → List Byte
  | .null => nullText
  | .bool value => if value then trueText else falseText
  | .int value => printInt value
  | .double value => printDouble value
  | .str value => quote :: value ++ [quote]
  | .list items => leftBracket :: itemsToString printDouble items ++ [rightBracket]
  | .dict entries => leftBrace :: entriesToString printDouble true entries ++ [rightBrace]

/-- A comma follows every item but the last one. -/
def itemsToString (printDouble : Double → List Byte) : List (JObject Double) → List Byte
  | [] => []
  | item :: items =>
    item.toString printDouble ++ (if items.isEmpty then [] else [comma]) ++
      itemsToString printDouble items

/-- A comma precedes every entry but the first one. -/
def entriesToString (printDouble : Double → List Byte) (first : Bool) :
    List (List Byte × JObject Double) → List Byte
  | [] => []
  | (key, value) :: entries =>
    (if first then [] else [comma]) ++ quote :: key ++ [quote, colon] ++
      value.toString printDouble ++ entriesToString printDouble false entries

end

/-! What a `dict_t` keeps: its keys ascend. -/

mutual

def WellFormed : JObject Double → Prop
  | .list items => ItemsWellFormed items
  | .dict entries => (entries.map Prod.fst).Pairwise (· < ·) ∧ EntriesWellFormed entries
  | _ => True

def ItemsWellFormed : List (JObject Double) → Prop
  | [] => True
  | item :: items => item.WellFormed ∧ ItemsWellFormed items

def EntriesWellFormed : List (List Byte × JObject Double) → Prop
  | [] => True
  | (_, value) :: entries => value.WellFormed ∧ EntriesWellFormed entries

end

end JObject

/-- How many backslashes stand right before a position. -/
def escapes (text : List Byte) (pos : Nat) : Nat :=
  ((text.take pos).reverse.takeWhile (· == backslash)).length

/-- Text that stands between quotes as it is: its quotes are escaped, and its end is not. -/
structure RawText (text : List Byte) : Prop where
  quotes : ∀ pos, text[pos]? = some quote → escapes text pos % 2 = 1
  ending : escapes text text.length % 2 = 0

instance (text : List Byte) : Decidable (RawText text) :=
  decidable_of_iff ((∀ pos < text.length, text[pos]? = some quote → escapes text pos % 2 = 1) ∧
      escapes text text.length % 2 = 0)
    ⟨fun raw => ⟨fun pos there => raw.1 pos (List.getElem?_eq_some_iff.mp there).1 there, raw.2⟩,
      fun raw => ⟨fun pos _ => raw.quotes pos, raw.ending⟩⟩

namespace JObject

variable {Double : Type}

/-! Objects of raw strings and keys, and without doubles. -/

mutual

def Raw : JObject Double → Prop
  | .double _ => False
  | .str value => RawText value
  | .list items => ItemsRaw items
  | .dict entries => EntriesRaw entries
  | _ => True

def ItemsRaw : List (JObject Double) → Prop
  | [] => True
  | item :: items => item.Raw ∧ ItemsRaw items

def EntriesRaw : List (List Byte × JObject Double) → Prop
  | [] => True
  | (key, value) :: entries => RawText key ∧ value.Raw ∧ EntriesRaw entries

end

/-! Objects whose integers are not negative. -/

mutual

def nonNegative : JObject Double → Bool
  | .int value => 0 ≤ value.toInt
  | .list items => itemsNonNegative items
  | .dict entries => entriesNonNegative entries
  | _ => true

def itemsNonNegative : List (JObject Double) → Bool
  | [] => true
  | item :: items => item.nonNegative && itemsNonNegative items

def entriesNonNegative : List (List Byte × JObject Double) → Bool
  | [] => true
  | (_, value) :: entries => value.nonNegative && entriesNonNegative entries

end

end JObject

open Base (Halt)

/-- What `GetNextToken` is called for: where a value may begin, or for what stands behind one.
The source makes no such difference. -/
inductive Place where
  | value
  | separator
  deriving DecidableEq, Repr

/-- The `std::logic_error`s, by the place that throws them. -/
inductive ParseError where
  | unexpectedEnd
  | unexpectedCharacter
  | null
  | bool
  | number
  | fraction
  | string
  | unclosedString
  | listSeparator
  | dictColon
  | dictSeparator
  | keyType
  | invalidComment (place : Place)
  deriving DecidableEq, Repr

def ParseError.what : ParseError → String
  | .unexpectedEnd => "Unexpected character in parse json"
  | .unexpectedCharacter => "Unexpected character in parse json"
  | .null => "parse null error"
  | .bool => "parse bool error"
  | .number => "invalid character in number"
  | .fraction => "at least one digit required in parse float part!"
  | .string => "parse string error"
  | .unclosedString => "expected left '\"' in parse string"
  | .listSeparator => "expected ',' in parse list"
  | .dictColon => "expected ':' in parse dict"
  | .dictSeparator => "expected ':' in parse dict"
  | .keyType => "type error in get string value!"
  | .invalidComment _ => "invalid comment area!"

abbrev Parsed (α : Type) := Except (Halt ParseError) α

section

def isSpace (ch : Byte) : Bool := ch = 32 ∨ 9 ≤ ch ∧ ch ≤ 13

def isDigit (ch : Byte) : Bool := 48 ≤ ch ∧ ch ≤ 57

variable (str : List Byte)

/-- `str_[idx]`. Behind the last character there is a NUL. -/
def charAt (idx : Nat) : Byte := str.getD idx 0

/-- `while (test(str_[idx_])) ++idx_`. -/
def skipWhile (test : Byte → Bool) (idx : Nat) : Nat := idx + ((str.drop idx).takeWhile test).length

def skipSpaces (idx : Nat) : Nat := skipWhile str isSpace idx

/-- `str_.find(ch, idx)`, which is `npos` if there is none. -/
def find (ch : Byte) (idx : Nat) : Option Nat :=
  ((str.drop idx).findIdx? (· == ch)).map (idx + ·)

/-- `str_.compare(idx, text.size(), text) == 0`. -/
def compare (idx : Nat) (text : List Byte) : Bool := (str.drop idx).take text.length = text

def trimRight : List Byte := str.rdropWhile isSpace

/-- `Parser::IsEscConsume`. A backslash it counts stands behind a quote. -/
def isEscConsume (pos : Nat) : Bool := escapes str (pos + 1) % 2 = 0

/-- Where the line behind a comment begins. `find` does not return `str_.size()`. -/
def nextLine (missing : Place → Parsed Nat) (place : Place) (idx : Nat) : Parsed Nat :=
  match find str newline idx with
  | some nextPos =>
    if nextPos = str.length then .error (.thrown (.invalidComment place)) else .ok (nextPos + 1)
  | none => missing place

/-- The loop of `Parser::SkipComment`. -/
def skipLines (missing : Place → Parsed Nat) (place : Place) : Nat → Nat → Parsed Nat
  | 0, _ => .error .unfinished
  | turns + 1, idx => do
      let idx ← nextLine str missing place idx
      if compare str (skipSpaces str idx) commentText then
        skipLines missing place turns (skipSpaces str idx)
      else .ok (skipSpaces str idx)

/-- The loop of `Parser::ParseString`. -/
def closingQuote : Nat → Nat → Parsed Nat
  | 0, _ => .error .unfinished
  | turns + 1, pos =>
    if charAt str (pos - 1) ≠ backslash then .ok pos
    else if isEscConsume str (pos - 1) then .ok pos
    else
      match find str quote (pos + 1) with
      | some next => closingQuote turns next
      | none => .error (.thrown .unclosedString)

end

/-- `strtol` on a text that begins with a digit. -/
def strtol (text : List Byte) : Nat :=
  min ((text.takeWhile isDigit).foldl (fun value ch => value * 10 + (ch.toNat - 48)) 0) (2 ^ 63 - 1)

/-- `Parser`, and what bounds a run. `missing` is what is done where a comment has no newline. -/
structure Parser (Double : Type) where
  str : List Byte
  strtof64 : List Byte → Double
  missing : Place → Parsed Nat
  turns : Nat

/-- `npos + 1`. -/
def rewind : Place → Parsed Nat := fun _ => .ok 0

/-- The error that the source has for an invalid comment. -/
def reject : Place → Parsed Nat := fun place => .error (.thrown (.invalidComment place))

namespace Parser

variable {Double : Type} (parser : Parser Double)

def skipComment (place : Place) (idx : Nat) : Parsed Nat :=
  if compare parser.str idx commentText then
    skipLines parser.str parser.missing place parser.turns idx
  else .ok idx

/-- `Parser::GetNextToken`; the token is the character at the index. -/
def getNextToken (place : Place) (idx : Nat) : Parsed Nat :=
  if parser.str.length ≤ skipSpaces parser.str idx then .error (.thrown .unexpectedEnd)
  else parser.skipComment place (skipSpaces parser.str idx)

def parseNull (idx : Nat) : Parsed (JObject Double × Nat) :=
  if compare parser.str idx nullText then .ok (.null, idx + 4) else .error (.thrown .null)

def parseBool (idx : Nat) : Parsed (JObject Double × Nat) :=
  if compare parser.str idx trueText then .ok (.bool true, idx + 4)
  else if compare parser.str idx falseText then .ok (.bool false, idx + 5)
  else .error (.thrown .bool)

/-- A `long` is cast to an `int`. -/
def parseNumber (begin : Nat) : Parsed (JObject Double × Nat) :=
  let idx := skipWhile parser.str isDigit begin
  if isDigit (charAt parser.str begin) then
    if charAt parser.str idx ≠ dot then
      .ok (.int (Int32.ofNat (strtol (parser.str.drop begin))), idx)
    else if isDigit (charAt parser.str (idx + 1)) then
      .ok (.double (parser.strtof64 (parser.str.drop begin)),
        skipWhile parser.str isDigit (idx + 1))
    else .error (.thrown .fraction)
  else .error (.thrown .number)

def parseString (idx : Nat) : Parsed (JObject Double × Nat) :=
  match find parser.str quote (idx + 1) with
  | some pos => do
      let pos ← closingQuote parser.str parser.turns pos
      .ok (.str ((parser.str.drop (idx + 1)).take (pos - (idx + 1))), pos + 1)
  | none => .error (.thrown .string)

def listLoop (parse : Nat → Parsed (JObject Double × Nat)) :
    Nat → List (JObject Double) → Nat → Parsed (JObject Double × Nat)
  | 0, _, _ => .error .unfinished
  | turns + 1, items, idx => do
      let item ← parse idx
      let idx ← parser.getNextToken .separator item.2
      if charAt parser.str idx = rightBracket then .ok (.list (items ++ [item.1]), idx + 1)
      else if charAt parser.str idx ≠ comma then .error (.thrown .listSeparator)
      else listLoop parse turns (items ++ [item.1]) (idx + 1)

def parseList (parse : Nat → Parsed (JObject Double × Nat)) (idx : Nat) :
    Parsed (JObject Double × Nat) := do
  let idx ← parser.getNextToken .value (idx + 1)
  if charAt parser.str idx = rightBracket then .ok (.list [], idx + 1)
  else parser.listLoop parse parser.turns [] idx

/-- `Value<string>()`. -/
def keyOf : JObject Double → Parsed (List Byte)
  | .str key => .ok key
  | _ => .error (.thrown .keyType)

def dictLoop (parse : Nat → Parsed (JObject Double × Nat)) :
    Nat → List (List Byte × JObject Double) → Nat → Parsed (JObject Double × Nat)
  | 0, _, _ => .error .unfinished
  | turns + 1, entries, idx => do
      let name ← parse idx
      let key ← keyOf name.1
      let idx ← parser.getNextToken .separator name.2
      if charAt parser.str idx ≠ colon then .error (.thrown .dictColon)
      else do
        let value ← parse (idx + 1)
        let idx ← parser.getNextToken .separator value.2
        if charAt parser.str idx = rightBrace then
          .ok (.dict (insertEntry key value.1 entries), idx + 1)
        else if charAt parser.str idx ≠ comma then .error (.thrown .dictSeparator)
        else dictLoop parse turns (insertEntry key value.1 entries) (idx + 1)

def parseDict (parse : Nat → Parsed (JObject Double × Nat)) (idx : Nat) :
    Parsed (JObject Double × Nat) := do
  let idx ← parser.getNextToken .value (idx + 1)
  if charAt parser.str idx = rightBrace then .ok (.dict [], idx + 1)
  else parser.dictLoop parse parser.turns [] idx

/-- `Parser::Parse` behind `GetNextToken`. -/
def parseToken (parse : Nat → Parsed (JObject Double × Nat)) (idx : Nat) :
    Parsed (JObject Double × Nat) :=
  let token := charAt parser.str idx
  if token = 110 then parser.parseNull idx
  else if token = 116 ∨ token = 102 then parser.parseBool idx
  else if token = minus ∨ isDigit token then parser.parseNumber idx
  else if token = quote then parser.parseString idx
  else if token = leftBracket then parser.parseList parse idx
  else if token = leftBrace then parser.parseDict parse idx
  else .error (.thrown .unexpectedCharacter)

def parse : Nat → Nat → Parsed (JObject Double × Nat)
  | 0, _ => .error .unfinished
  | depth + 1, idx => do
      let idx ← parser.getNextToken .value idx
      parser.parseToken (parse depth) idx

def fromString (strtof64 : List Byte → Double) (missing : Place → Parsed Nat) (fuel : Nat)
    (content : List Byte) : Parsed (JObject Double) :=
  Prod.fst <$> (Parser.mk (trimRight content) strtof64 missing fuel).parse fuel 0

end Parser

end Bitdb.Json
