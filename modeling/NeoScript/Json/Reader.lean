import NeoScript.Json.Number

/-!
# Reader — reading typed values out of JSON text

Text is read once, from left to right, straight into the type that its place asks for.  So of two
faults the one that comes first in the text is reported, whether it is a fault of form or of shape.

* `Json.Reader` — a step that consumes text and gives a value;
* readers of one value: `Reader.text`, `Reader.word`, `Reader.flag`, `Reader.value`;
* the frame of arrays and objects: `Reader.array`, `Reader.object` and their parts;
* `Reader.ignored` — skips a value that nobody asks for;
* `Reader.run` — reads a whole text.

Readers of nested values take the number of levels that may still be opened.
-/

namespace NeoScript
namespace Json

abbrev Reader := StateT (List Char) (Except JsonFault)

def maxDepth : Nat := 127

namespace Reader

/-! ## Characters -/

def fail {α : Type} (fault : JsonFault) : Reader α :=
  fun _ => .error fault

def isJsonBlank (c : Char) : Bool :=
  c = ' ' || c = '\n' || c = '\t' || c = '\r'

/-- The next character that is not blank, left in place. -/
def peek? : Reader (Option Char) := fun cs =>
  let rest := cs.dropWhile isJsonBlank
  .ok (rest.head?, rest)

def advance : Reader Unit :=
  modify (·.drop 1)

/-- The remaining characters of a word such as `null`. -/
def word? : List Char → Reader Unit
  | [] => pure ()
  | expected :: more => fun cs =>
      match cs with
      | [] => .error .unfinished
      | c :: rest => if c = expected then word? more rest else .error .malformed

/-! ## Strings -/

/-- Four hexadecimal digits; fewer than four bytes mean that the text ends too early. -/
def hex4 (cs : List Char) : Except JsonFault (Nat × List Char) :=
  let front := cs.take 4
  let size := front.foldl (fun n c => n + c.utf8Size) 0
  if size < 4 then .error .unfinished
  else match front.mapM Bytes.hexValue? with
    | some [a, b, c, d] => .ok (((a * 16 + b) * 16 + c) * 16 + d, cs.drop 4)
    | _ => .error .malformed

/-- The character of a `\u` escape; a high surrogate must be followed by a low one. -/
def unicodeEscape (cs : List Char) : Except JsonFault (Char × List Char) := do
  let (high, rest) ← hex4 cs
  if 0xDC00 ≤ high ∧ high ≤ 0xDFFF then .error .malformed
  else if high < 0xD800 ∨ 0xDBFF < high then .ok (Char.ofNat high, rest)
  else match rest with
    | [] => .error .unfinished
    | ['\\'] => .error .unfinished
    | '\\' :: 'u' :: rest => do
        let (low, rest) ← hex4 rest
        if 0xDC00 ≤ low ∧ low ≤ 0xDFFF then
          .ok (Char.ofNat ((high - 0xD800) * 0x400 + (low - 0xDC00) + 0x10000), rest)
        else .error .malformed
    | _ => .error .malformed

def escape : List Char → Except JsonFault (Char × List Char)
  | [] => .error .unfinished
  | '"' :: rest => .ok ('"', rest)
  | '\\' :: rest => .ok ('\\', rest)
  | '/' :: rest => .ok ('/', rest)
  | 'b' :: rest => .ok ('\x08', rest)
  | 'f' :: rest => .ok ('\x0c', rest)
  | 'n' :: rest => .ok ('\n', rest)
  | 'r' :: rest => .ok ('\r', rest)
  | 't' :: rest => .ok ('\t', rest)
  | 'u' :: rest => unicodeEscape rest
  | _ => .error .malformed

/-- The rest of a string, behind its opening quote. -/
def stringBody : (fuel : Nat) → List Char → List Char → Except JsonFault (String × List Char)
  | 0, _, _ => .error .unfinished
  | _ + 1, [], _ => .error .unfinished
  | fuel + 1, c :: rest, out =>
      if c = '"' then .ok (String.ofList out.reverse, rest)
      else if c = '\\' then
        match escape rest with
        | .error fault => .error fault
        | .ok (d, rest) => stringBody fuel rest (d :: out)
      else if c.toNat < 32 then .error .malformed
      else stringBody fuel rest (c :: out)

def string : Reader String := fun cs =>
  stringBody (cs.length + 1) cs []

/-- Skips an escape; a `\u` escape may be a lone surrogate. -/
def skipEscape : List Char → Except JsonFault (List Char)
  | 'u' :: rest => (hex4 rest).map (·.2)
  | cs => (escape cs).map (·.2)

def skipStringBody : (fuel : Nat) → List Char → Except JsonFault (List Char)
  | 0, _ => .error .unfinished
  | _ + 1, [] => .error .unfinished
  | fuel + 1, c :: rest =>
      if c = '"' then .ok rest
      else if c = '\\' then
        match skipEscape rest with
        | .error fault => .error fault
        | .ok rest => skipStringBody fuel rest
      else if c.toNat < 32 then .error .malformed
      else skipStringBody fuel rest

def skipString : Reader Unit := fun cs =>
  (skipStringBody (cs.length + 1) cs).map ((), ·)

def number (positive : Bool) : Reader JsonNumber :=
  fun cs => readNumber positive cs

/-! ## Wrong shapes -/

/-- The next value has the wrong shape.  A scalar is read first, so that a fault of form inside it
is reported instead. -/
def wrongShape {α : Type} : Reader α := do
  match ← peek? with
  | some 'n' => advance; word? "ull".toList; fail .shape
  | some 't' => advance; word? "rue".toList; fail .shape
  | some 'f' => advance; word? "alse".toList; fail .shape
  | some '-' => advance; discard (number false); fail .shape
  | some '"' => advance; discard string; fail .shape
  | some '[' => fail .shape
  | some '\x7b' => fail .shape
  | some c =>
      if (Text.digitValue? c).isSome then discard (number true); fail .shape else fail .malformed
  | none => fail .malformed

/-- The next character that is not blank; a text that ends here is unfinished. -/
def peekValue : Reader Char := do
  match ← peek? with
  | some c => return c
  | none => fail .unfinished

/-! ## Scalars -/

def text : Reader String := do
  if (← peekValue) = '"' then advance; string else wrongShape

def word : Reader Nat := do
  let c ← peekValue
  let n ← if c = '-' then advance; number false
    else if (Text.digitValue? c).isSome then number true
    else wrongShape
  match n with
  | .int value => if 0 ≤ value then return value.toNat else fail .shape
  | .double _ => fail .shape

def flag : Reader Bool := do
  let c ← peekValue
  if c = 't' then advance; word? "rue".toList; return true
  else if c = 'f' then advance; word? "alse".toList; return false
  else wrongShape

def nothing : Reader Unit := do
  if (← peekValue) = 'n' then advance; word? "ull".toList else wrongShape

/-- Reads a value, or `null` for none. -/
def optional {α : Type} (item : Reader α) : Reader (Option α) := do
  if (← peek?) = some 'n' then advance; word? "ull".toList; return none
  else return some (← item)

/-! ## Arrays -/

/-- Whether another item follows; the comma in front of it is consumed. -/
def hasItem (first : Bool) : Reader Bool := do
  match ← peek? with
  | none => fail .unfinished
  | some c =>
      if c = ']' then return false
      else if first then return true
      else if c = ',' then
        advance
        match ← peek? with
        | none => fail .unfinished
        | some d => if d = ']' then fail .malformed else return true
      else fail .malformed

def endArray : Reader Unit := do
  match ← peek? with
  | none => fail .unfinished
  | some c => if c = ']' then advance else fail .malformed

def items {α : Type} (item : Reader α) : (fuel : Nat) → (first : Bool) → List α → Reader (List α)
  | 0, _, _ => fail .unfinished
  | fuel + 1, first, out => do
      if ← hasItem first then items item fuel false ((← item) :: out)
      else return out.reverse

def nested {α : Type} (depth : Nat) (body : Nat → Reader α) : Reader α :=
  match depth with
  | 0 => fail .malformed
  | depth + 1 => do advance; body depth

def array {α : Type} (depth : Nat) (item : Nat → Reader α) : Reader (List α) := do
  if (← peekValue) = '[' then
    nested depth fun depth => do
      let fuel := (← get).length + 1
      let out ← items (item depth) fuel true []
      endArray
      return out
  else wrongShape

/-! ## Objects -/

/-- Whether another member follows; the comma in front of it is consumed. -/
def hasMember (first : Bool) : Reader Bool := do
  match ← peek? with
  | none => fail .unfinished
  | some c =>
      if c = '\x7d' then return false
      else if first then if c = '"' then return true else fail .malformed
      else if c = ',' then
        advance
        match ← peek? with
        | none => fail .unfinished
        | some d => if d = '"' then return true else fail .malformed
      else fail .malformed

def colon : Reader Unit := do
  match ← peek? with
  | none => fail .unfinished
  | some c => if c = ':' then advance else fail .malformed

def endObject : Reader Unit := do
  match ← peek? with
  | none => fail .unfinished
  | some c => if c = '\x7d' then advance else fail .malformed

/-- Folds the members until the end of the object; `member` reads the colon and the value. -/
def members {σ : Type} (member : String → σ → Reader σ) :
    (fuel : Nat) → (first : Bool) → σ → Reader σ
  | 0, _, _ => fail .unfinished
  | fuel + 1, first, acc => do
      if ← hasMember first then
        advance
        let name ← string
        members member fuel false (← member name acc)
      else return acc

/-- Reads an object by folding its members.  `finish` sees all members before the closing brace is
consumed. -/
def object {σ α : Type} (depth : Nat) (start : σ) (member : Nat → String → σ → Reader σ)
    (finish : σ → Reader α) : Reader α := do
  if (← peekValue) = '\x7b' then
    nested depth fun depth => do
      let fuel := (← get).length + 1
      let out ← finish (← members (member depth) fuel true start)
      endObject
      return out
  else wrongShape

def required {α : Type} : Option α → Reader α
  | some value => return value
  | none => fail .shape

/-- A member that may occur once: reads it behind its colon. -/
def once {α : Type} (seen : Option α) (item : Reader α) : Reader (Option α) := do
  if seen.isSome then fail .shape
  else
    colon
    return some (← item)

/-- One name of an enumeration: a string, or an object with that name and `null`. -/
def variant {α : Type} (depth : Nat) (find : String → Option α) : Reader α := do
  let c ← peekValue
  if c = '"' then
    advance
    required (find (← string))
  else if c = '\x7b' then
    nested depth fun _ => do
      let found ← required (find (← text))
      colon
      nothing
      match ← peek? with
      | none => fail .unfinished
      | some d => if d = '\x7d' then advance; return found else fail .malformed
  else fail .malformed

/-! ## Any value -/

/-- Reads a value; `inner` reads the values nested in it, if another level may be opened. -/
def valueWith (inner : Option (Reader Json)) : Reader Json := do
  let c ← peekValue
  if c = 'n' then advance; word? "ull".toList; return .null
  else if c = 't' then advance; word? "rue".toList; return .bool true
  else if c = 'f' then advance; word? "alse".toList; return .bool false
  else if c = '-' then advance; return .number (← number false)
  else if (Text.digitValue? c).isSome then return .number (← number true)
  else if c = '"' then advance; return .string (← string)
  else if c = '[' then
    match inner with
    | none => fail .malformed
    | some item =>
        advance
        let out ← items item ((← get).length + 1) true []
        endArray
        return .array out
  else if c = '\x7b' then
    match inner with
    | none => fail .malformed
    | some item =>
        advance
        let fuel := (← get).length + 1
        let member (name : String) (out : List (String × Json)) :
            Reader (List (String × Json)) := do
          colon
          return put out name (← item)
        let out ← members member fuel true []
        endObject
        return .object out
  else fail .malformed

/-- Reads any value that opens at most `depth` levels. -/
def value : (depth : Nat) → Reader Json
  | 0 => valueWith none
  | depth + 1 => valueWith (some (value depth))

/-! ## Skipped values -/

def skipNumber : Reader Unit := fun cs =>
  (Json.skipNumber cs).map ((), ·)

def skipMembers (item : Reader Unit) : (fuel : Nat) → (first : Bool) → Reader Unit
  | 0, _ => fail .unfinished
  | fuel + 1, first => do
      if ← hasMember first then
        advance
        skipString
        colon
        item
        skipMembers item fuel false
      else return

/-- Skips a value that opens at most `levels` levels.  Only the form of numbers and escapes is
checked. -/
def ignored : (levels : Nat) → Reader Unit
  | 0 => fail .malformed
  | levels + 1 => do
      let c ← peekValue
      if c = 'n' then advance; word? "ull".toList
      else if c = 't' then advance; word? "rue".toList
      else if c = 'f' then advance; word? "alse".toList
      else if c = '-' then advance; skipNumber
      else if (Text.digitValue? c).isSome then skipNumber
      else if c = '"' then advance; skipString
      else if c = '[' then
        advance
        discard (items (ignored levels) ((← get).length + 1) true [])
        endArray
      else if c = '\x7b' then
        advance
        skipMembers (ignored levels) ((← get).length + 1) true
        endObject
      else fail .malformed

/-- Skips any value; its nesting is not limited. -/
def ignoredValue : Reader Unit := do
  ignored ((← get).length + 1)

/-! ## Whole texts -/

/-- Reads a whole text: nothing but blanks may follow the value. -/
def run {α : Type} (reader : Reader α) (source : String) : Except JsonFault α := do
  let (out, rest) ← reader source.toList
  if (rest.dropWhile isJsonBlank).isEmpty then .ok out else .error .malformed

end Reader

def parse (source : String) : Except JsonFault Json :=
  (Reader.value maxDepth).run source

end Json
end NeoScript
