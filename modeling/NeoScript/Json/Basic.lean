import NeoScript.Float.Shortest

/-!
# Json — values and their text

Objects keep their members in the order in which they were first seen.  This file defines:

* `Json`, with integers of sixty-four bits kept exact and every other number a double;
* `Json.compact` — text without blanks, and `Json.pretty` — text on indented lines.

A double is written with its shortest digits: positionally from `1e-5` up to `1e16`, with at least
one digit behind the point, and with a signed exponent elsewhere.
-/

namespace NeoScript

inductive JsonNumber where
  /-- From `-2 ^ 63` up to `2 ^ 64 - 1`. -/
  | int (value : Int)
  | double (value : Float)
  deriving Repr

inductive Json where
  | null
  | bool (value : Bool)
  | number (value : JsonNumber)
  | string (value : String)
  | array (items : List Json)
  | object (members : List (String × Json))
  deriving Repr, Inhabited

namespace JsonNumber

def positional (digits : List Char) (exponent : Int) : String :=
  if 0 ≤ exponent then
    String.ofList (digits ++ List.replicate exponent.toNat '0') ++ ".0"
  else
    let places := (-exponent).toNat
    if places < digits.length then
      String.ofList (digits.take (digits.length - places)) ++ "." ++
        String.ofList (digits.drop (digits.length - places))
    else
      "0." ++ String.ofList (List.replicate (places - digits.length) '0' ++ digits)

/-- Digits with the point behind the first and a signed exponent. -/
def scientific (digits : List Char) (leading : Int) : String :=
  let mantissa := match digits with
    | [] => "0"
    | [d] => String.ofList [d]
    | d :: rest => String.ofList (d :: '.' :: rest)
  let sign := if leading < 0 then "-" else "+"
  mantissa ++ "e" ++ sign ++ toString leading.natAbs

def renderDouble (x : Float) : String :=
  let b := Binary.ofFloat x
  let sign := if b.negative then "-" else ""
  if b.significand = 0 then sign ++ "0.0"
  else
    let d := b.shortest
    let digits := Nat.toDigits 10 d.digits
    let leading := d.exponent + (digits.length : Int) - 1
    if -5 ≤ leading ∧ leading < 16 then sign ++ positional digits d.exponent
    else sign ++ scientific digits leading

def render : JsonNumber → String
  | int value => toString value
  | double value => renderDouble value

end JsonNumber

namespace Json

/-- A character inside a string; quotes, backslashes and control characters are escaped. -/
def escapeChar (c : Char) : List Char :=
  if c = '"' then ['\\', '"']
  else if c = '\\' then ['\\', '\\']
  else if c = '\n' then ['\\', 'n']
  else if c = '\r' then ['\\', 'r']
  else if c = '\t' then ['\\', 't']
  else if c.toNat = 8 then ['\\', 'b']
  else if c.toNat = 12 then ['\\', 'f']
  else if c.toNat < 32 then
    let hex := Nat.toDigits 16 c.toNat
    ['\\', 'u'] ++ List.replicate (4 - hex.length) '0' ++ hex
  else [c]

def quote (s : String) : String :=
  "\"" ++ String.ofList (s.toList.flatMap escapeChar) ++ "\""

mutual

def compact : Json → String
  | null => "null"
  | bool true => "true"
  | bool false => "false"
  | number n => n.render
  | string s => quote s
  | array items => "[" ++ ",".intercalate (compactItems items) ++ "]"
  | object members => "\x7b" ++ ",".intercalate (compactMembers members) ++ "\x7d"

def compactItems : List Json → List String
  | [] => []
  | item :: rest => compact item :: compactItems rest

def compactMembers : List (String × Json) → List String
  | [] => []
  | (name, value) :: rest => (quote name ++ ":" ++ compact value) :: compactMembers rest

end

private def indentation (depth : Nat) : String :=
  "\n" ++ String.ofList (List.replicate (2 * depth) ' ')

mutual

def prettyAt (depth : Nat) : Json → String
  | null => "null"
  | bool true => "true"
  | bool false => "false"
  | number n => n.render
  | string s => quote s
  | array [] => "[]"
  | array items =>
      "[" ++ ",".intercalate (prettyItems (depth + 1) items) ++ indentation depth ++ "]"
  | object [] => "\x7b\x7d"
  | object members =>
      "\x7b" ++ ",".intercalate (prettyMembers (depth + 1) members) ++ indentation depth ++ "\x7d"

def prettyItems (depth : Nat) : List Json → List String
  | [] => []
  | item :: rest => (indentation depth ++ prettyAt depth item) :: prettyItems depth rest

def prettyMembers (depth : Nat) : List (String × Json) → List String
  | [] => []
  | (name, value) :: rest =>
      (indentation depth ++ quote name ++ ": " ++ prettyAt depth value) :: prettyMembers depth rest

end

def pretty (value : Json) : String :=
  prettyAt 0 value

/-! ## Building and looking up -/

def nat (n : Nat) : Json :=
  number (.int n)

def int (n : Int) : Json :=
  number (.int n)

def strings (items : List String) : Json :=
  array (items.map string)

/-- An optional value; absence is `null`. -/
def ofOption {α : Type} (encode : α → Json) : Option α → Json
  | none => null
  | some value => encode value

def get? (name : String) : Json → Option Json
  | object members => members.lookup name
  | _ => none

/-- Puts a member: a known name keeps its place and takes the new value. -/
def put (members : List (String × Json)) (name : String) (value : Json) : List (String × Json) :=
  if members.any (·.1 == name) then
    members.map fun m => if m.1 == name then (name, value) else m
  else members ++ [(name, value)]

end Json

end NeoScript
