/-!
# Opcode — the operations of the virtual machine

An operation is named by what it does, with its variants as arguments: a jump has a condition and a
reach, a slot access has a slot and an index.  This file defines:

* `Opcode`, with its byte (`toByte`, `ofByte?`), its mnemonic (`mnemonic`, `ofMnemonic?`), the
  layout of its operand (`layout`) and its base price (`price`);
* the classes of operations on which block structure and relocation depend (`isJump`,
  `hasSingleTarget`, `isBlockEnding`, `isLong`, `toLong`, ...);
* `ItemType`, the type tags of stack items.
-/

namespace NeoScript

/-! ## Variants -/

/-- Number of operand bytes of an integer push. -/
inductive IntWidth where
  | w1 | w2 | w4 | w8 | w16 | w32
  deriving DecidableEq, Repr

/-- Number of bytes that hold the length of a data push. -/
inductive LengthWidth where
  | w1 | w2 | w4
  deriving DecidableEq, Repr

/-- How far an address operand reaches: one signed byte or four. -/
inductive Reach where
  | short | long
  deriving DecidableEq, Repr

/-- The six orders between two integers. -/
inductive Comparison where
  | eq | ne | gt | ge | lt | le
  deriving DecidableEq, Repr

inductive Condition where
  | always
  | ifTrue
  | ifFalse
  | compare (order : Comparison)
  deriving DecidableEq, Repr

/-- Integer operations of two operands whose value is known when both operands are. -/
inductive Arith where
  | add | sub | mul | div | mod | shl | shr | and | or | xor
  deriving DecidableEq, Repr

inductive Unary where
  | invert | sign | abs | negate | inc | dec
  deriving DecidableEq, Repr

inductive Slot where
  | statics | locals | arguments
  deriving DecidableEq, Repr

/-- A slot index fixed by the opcode, or given by the operand byte. -/
inductive SlotIndex where
  | fixed (index : Fin 7)
  | operand
  deriving DecidableEq, Repr

namespace IntWidth

def bytes : IntWidth → Nat
  | w1 => 1
  | w2 => 2
  | w4 => 4
  | w8 => 8
  | w16 => 16
  | w32 => 32

def all : List IntWidth := [w1, w2, w4, w8, w16, w32]

end IntWidth

namespace LengthWidth

def bytes : LengthWidth → Nat
  | w1 => 1
  | w2 => 2
  | w4 => 4

end LengthWidth

namespace Comparison

def holds : Comparison → Int → Int → Bool
  | eq, a, b => a == b
  | ne, a, b => a != b
  | gt, a, b => decide (b < a)
  | ge, a, b => decide (b ≤ a)
  | lt, a, b => decide (a < b)
  | le, a, b => decide (a ≤ b)

end Comparison

/-! ## Operations -/

inductive Opcode where
  | pushInt (width : IntWidth)
  | pushTrue
  | pushFalse
  | pushPointer
  | pushNull
  | pushData (width : LengthWidth)
  | pushMinusOne
  | pushSmall (value : Fin 17)
  | nop
  | jump (condition : Condition) (reach : Reach)
  | call (reach : Reach)
  | callPointer
  | callToken
  | abort
  | assert
  | throw
  | enterTry (reach : Reach)
  | endTry (reach : Reach)
  | endFinally
  | ret
  | sysCall
  | depth
  | drop
  | nip
  | dropAt
  | clear
  | dup
  | overTop
  | pick
  | tuck
  | swap
  | rot
  | roll
  | reverse3
  | reverse4
  | reverseN
  | initStatics
  | initSlots
  | load (slot : Slot) (index : SlotIndex)
  | store (slot : Slot) (index : SlotIndex)
  | newBuffer
  | copyBytes
  | cat
  | subString
  | left
  | right
  | arith (operation : Arith)
  | unary (operation : Unary)
  | equal
  | notEqual
  | pow
  | sqrt
  | modMul
  | modPow
  | not
  | boolAnd
  | boolOr
  | nonZero
  | compare (order : Comparison)
  | min
  | max
  | within
  | packMap
  | packStruct
  | pack
  | unpack
  | newArray0
  | newArray
  | newArrayOf
  | newStruct0
  | newStruct
  | newMap
  | size
  | hasKey
  | keys
  | values
  | pickItem
  | append
  | setItem
  | reverseItems
  | remove
  | clearItems
  | popItem
  | isNull
  | isType
  | convert
  | abortMessage
  | assertMessage
  deriving DecidableEq, Repr

inductive OperandLayout where
  /-- No operand. -/
  | empty
  /-- An operand of a fixed number of bytes. -/
  | fixed (bytes : Nat)
  /-- A little-endian length of the given width, then that many bytes. -/
  | counted (width : LengthWidth)
  deriving DecidableEq, Repr

namespace Opcode

/-! ## Byte values -/

private def reachBit : Reach → UInt8
  | .short => 0
  | .long => 1

private def jumpRow : Condition → UInt8
  | .always => 0x22
  | .ifTrue => 0x24
  | .ifFalse => 0x26
  | .compare .eq => 0x28
  | .compare .ne => 0x2A
  | .compare .gt => 0x2C
  | .compare .ge => 0x2E
  | .compare .lt => 0x30
  | .compare .le => 0x32

private def loadRow : Slot → UInt8
  | .statics => 0x58
  | .locals => 0x68
  | .arguments => 0x78

private def indexOffset : SlotIndex → UInt8
  | .fixed i => UInt8.ofNat i.val
  | .operand => 7

def toByte : Opcode → UInt8
  | pushInt .w1 => 0x00
  | pushInt .w2 => 0x01
  | pushInt .w4 => 0x02
  | pushInt .w8 => 0x03
  | pushInt .w16 => 0x04
  | pushInt .w32 => 0x05
  | pushTrue => 0x08
  | pushFalse => 0x09
  | pushPointer => 0x0A
  | pushNull => 0x0B
  | pushData .w1 => 0x0C
  | pushData .w2 => 0x0D
  | pushData .w4 => 0x0E
  | pushMinusOne => 0x0F
  | pushSmall n => 0x10 + UInt8.ofNat n.val
  | nop => 0x21
  | jump c r => jumpRow c + reachBit r
  | call r => 0x34 + reachBit r
  | callPointer => 0x36
  | callToken => 0x37
  | abort => 0x38
  | assert => 0x39
  | throw => 0x3A
  | enterTry r => 0x3B + reachBit r
  | endTry r => 0x3D + reachBit r
  | endFinally => 0x3F
  | ret => 0x40
  | sysCall => 0x41
  | depth => 0x43
  | drop => 0x45
  | nip => 0x46
  | dropAt => 0x48
  | clear => 0x49
  | dup => 0x4A
  | overTop => 0x4B
  | pick => 0x4D
  | tuck => 0x4E
  | swap => 0x50
  | rot => 0x51
  | roll => 0x52
  | reverse3 => 0x53
  | reverse4 => 0x54
  | reverseN => 0x55
  | initStatics => 0x56
  | initSlots => 0x57
  | load s i => loadRow s + indexOffset i
  | store s i => loadRow s + 8 + indexOffset i
  | newBuffer => 0x88
  | copyBytes => 0x89
  | cat => 0x8B
  | subString => 0x8C
  | left => 0x8D
  | right => 0x8E
  | unary .invert => 0x90
  | arith .and => 0x91
  | arith .or => 0x92
  | arith .xor => 0x93
  | equal => 0x97
  | notEqual => 0x98
  | unary .sign => 0x99
  | unary .abs => 0x9A
  | unary .negate => 0x9B
  | unary .inc => 0x9C
  | unary .dec => 0x9D
  | arith .add => 0x9E
  | arith .sub => 0x9F
  | arith .mul => 0xA0
  | arith .div => 0xA1
  | arith .mod => 0xA2
  | pow => 0xA3
  | sqrt => 0xA4
  | modMul => 0xA5
  | modPow => 0xA6
  | arith .shl => 0xA8
  | arith .shr => 0xA9
  | not => 0xAA
  | boolAnd => 0xAB
  | boolOr => 0xAC
  | nonZero => 0xB1
  | compare .eq => 0xB3
  | compare .ne => 0xB4
  | compare .lt => 0xB5
  | compare .le => 0xB6
  | compare .gt => 0xB7
  | compare .ge => 0xB8
  | min => 0xB9
  | max => 0xBA
  | within => 0xBB
  | packMap => 0xBE
  | packStruct => 0xBF
  | pack => 0xC0
  | unpack => 0xC1
  | newArray0 => 0xC2
  | newArray => 0xC3
  | newArrayOf => 0xC4
  | newStruct0 => 0xC5
  | newStruct => 0xC6
  | newMap => 0xC8
  | size => 0xCA
  | hasKey => 0xCB
  | keys => 0xCC
  | values => 0xCD
  | pickItem => 0xCE
  | append => 0xCF
  | setItem => 0xD0
  | reverseItems => 0xD1
  | remove => 0xD2
  | clearItems => 0xD3
  | popItem => 0xD4
  | isNull => 0xD8
  | isType => 0xD9
  | convert => 0xDB
  | abortMessage => 0xE0
  | assertMessage => 0xE1

/-- The index that stands at column `column` of a row of eight slot accesses. -/
private def slotIndexAt (column : Nat) : SlotIndex :=
  if h : column < 7 then .fixed ⟨column, h⟩ else .operand

/-- The operation at row `row` and column `column` of the table of sixteen by sixteen bytes. -/
private def atCell : Nat → Nat → Option Opcode
  | 0x0, 0x0 => some (pushInt .w1)
  | 0x0, 0x1 => some (pushInt .w2)
  | 0x0, 0x2 => some (pushInt .w4)
  | 0x0, 0x3 => some (pushInt .w8)
  | 0x0, 0x4 => some (pushInt .w16)
  | 0x0, 0x5 => some (pushInt .w32)
  | 0x0, 0x8 => some pushTrue
  | 0x0, 0x9 => some pushFalse
  | 0x0, 0xA => some pushPointer
  | 0x0, 0xB => some pushNull
  | 0x0, 0xC => some (pushData .w1)
  | 0x0, 0xD => some (pushData .w2)
  | 0x0, 0xE => some (pushData .w4)
  | 0x0, 0xF => some pushMinusOne
  | 0x1, n => some (pushSmall (Fin.ofNat 17 n))
  | 0x2, 0x0 => some (pushSmall 16)
  | 0x2, 0x1 => some nop
  | 0x2, 0x2 => some (jump .always .short)
  | 0x2, 0x3 => some (jump .always .long)
  | 0x2, 0x4 => some (jump .ifTrue .short)
  | 0x2, 0x5 => some (jump .ifTrue .long)
  | 0x2, 0x6 => some (jump .ifFalse .short)
  | 0x2, 0x7 => some (jump .ifFalse .long)
  | 0x2, 0x8 => some (jump (.compare .eq) .short)
  | 0x2, 0x9 => some (jump (.compare .eq) .long)
  | 0x2, 0xA => some (jump (.compare .ne) .short)
  | 0x2, 0xB => some (jump (.compare .ne) .long)
  | 0x2, 0xC => some (jump (.compare .gt) .short)
  | 0x2, 0xD => some (jump (.compare .gt) .long)
  | 0x2, 0xE => some (jump (.compare .ge) .short)
  | 0x2, 0xF => some (jump (.compare .ge) .long)
  | 0x3, 0x0 => some (jump (.compare .lt) .short)
  | 0x3, 0x1 => some (jump (.compare .lt) .long)
  | 0x3, 0x2 => some (jump (.compare .le) .short)
  | 0x3, 0x3 => some (jump (.compare .le) .long)
  | 0x3, 0x4 => some (call .short)
  | 0x3, 0x5 => some (call .long)
  | 0x3, 0x6 => some callPointer
  | 0x3, 0x7 => some callToken
  | 0x3, 0x8 => some abort
  | 0x3, 0x9 => some assert
  | 0x3, 0xA => some throw
  | 0x3, 0xB => some (enterTry .short)
  | 0x3, 0xC => some (enterTry .long)
  | 0x3, 0xD => some (endTry .short)
  | 0x3, 0xE => some (endTry .long)
  | 0x3, 0xF => some endFinally
  | 0x4, 0x0 => some ret
  | 0x4, 0x1 => some sysCall
  | 0x4, 0x3 => some depth
  | 0x4, 0x5 => some drop
  | 0x4, 0x6 => some nip
  | 0x4, 0x8 => some dropAt
  | 0x4, 0x9 => some clear
  | 0x4, 0xA => some dup
  | 0x4, 0xB => some overTop
  | 0x4, 0xD => some pick
  | 0x4, 0xE => some tuck
  | 0x5, 0x0 => some swap
  | 0x5, 0x1 => some rot
  | 0x5, 0x2 => some roll
  | 0x5, 0x3 => some reverse3
  | 0x5, 0x4 => some reverse4
  | 0x5, 0x5 => some reverseN
  | 0x5, 0x6 => some initStatics
  | 0x5, 0x7 => some initSlots
  | 0x5, n => some (load .statics (slotIndexAt (n - 8)))
  | 0x6, n =>
      if n < 8 then some (store .statics (slotIndexAt n))
      else some (load .locals (slotIndexAt (n - 8)))
  | 0x7, n =>
      if n < 8 then some (store .locals (slotIndexAt n))
      else some (load .arguments (slotIndexAt (n - 8)))
  | 0x8, 0x8 => some newBuffer
  | 0x8, 0x9 => some copyBytes
  | 0x8, 0xA => none
  | 0x8, 0xB => some cat
  | 0x8, 0xC => some subString
  | 0x8, 0xD => some left
  | 0x8, 0xE => some right
  | 0x8, 0xF => none
  | 0x8, n => some (store .arguments (slotIndexAt n))
  | 0x9, 0x0 => some (unary .invert)
  | 0x9, 0x1 => some (arith .and)
  | 0x9, 0x2 => some (arith .or)
  | 0x9, 0x3 => some (arith .xor)
  | 0x9, 0x7 => some equal
  | 0x9, 0x8 => some notEqual
  | 0x9, 0x9 => some (unary .sign)
  | 0x9, 0xA => some (unary .abs)
  | 0x9, 0xB => some (unary .negate)
  | 0x9, 0xC => some (unary .inc)
  | 0x9, 0xD => some (unary .dec)
  | 0x9, 0xE => some (arith .add)
  | 0x9, 0xF => some (arith .sub)
  | 0xA, 0x0 => some (arith .mul)
  | 0xA, 0x1 => some (arith .div)
  | 0xA, 0x2 => some (arith .mod)
  | 0xA, 0x3 => some pow
  | 0xA, 0x4 => some sqrt
  | 0xA, 0x5 => some modMul
  | 0xA, 0x6 => some modPow
  | 0xA, 0x8 => some (arith .shl)
  | 0xA, 0x9 => some (arith .shr)
  | 0xA, 0xA => some not
  | 0xA, 0xB => some boolAnd
  | 0xA, 0xC => some boolOr
  | 0xB, 0x1 => some nonZero
  | 0xB, 0x3 => some (compare .eq)
  | 0xB, 0x4 => some (compare .ne)
  | 0xB, 0x5 => some (compare .lt)
  | 0xB, 0x6 => some (compare .le)
  | 0xB, 0x7 => some (compare .gt)
  | 0xB, 0x8 => some (compare .ge)
  | 0xB, 0x9 => some min
  | 0xB, 0xA => some max
  | 0xB, 0xB => some within
  | 0xB, 0xE => some packMap
  | 0xB, 0xF => some packStruct
  | 0xC, 0x0 => some pack
  | 0xC, 0x1 => some unpack
  | 0xC, 0x2 => some newArray0
  | 0xC, 0x3 => some newArray
  | 0xC, 0x4 => some newArrayOf
  | 0xC, 0x5 => some newStruct0
  | 0xC, 0x6 => some newStruct
  | 0xC, 0x8 => some newMap
  | 0xC, 0xA => some size
  | 0xC, 0xB => some hasKey
  | 0xC, 0xC => some keys
  | 0xC, 0xD => some values
  | 0xC, 0xE => some pickItem
  | 0xC, 0xF => some append
  | 0xD, 0x0 => some setItem
  | 0xD, 0x1 => some reverseItems
  | 0xD, 0x2 => some remove
  | 0xD, 0x3 => some clearItems
  | 0xD, 0x4 => some popItem
  | 0xD, 0x8 => some isNull
  | 0xD, 0x9 => some isType
  | 0xD, 0xB => some convert
  | 0xE, 0x0 => some abortMessage
  | 0xE, 0x1 => some assertMessage
  | _, _ => none

/-- The operation of a byte, if the machine defines one. -/
def ofByte? (byte : UInt8) : Option Opcode :=
  atCell (byte.toNat / 16) (byte.toNat % 16)

/-- Every operation, in the order of its byte. -/
def all : List Opcode :=
  (List.range 256).filterMap fun n => ofByte? (UInt8.ofNat n)

/-- Reading the byte of an operation gives the operation back. -/
@[simp] theorem ofByte?_toByte (op : Opcode) : ofByte? op.toByte = some op := by
  cases op with
  | pushInt w => cases w <;> rfl
  | pushData w => cases w <;> rfl
  | pushSmall n => revert n; decide
  | jump c r =>
      cases c with
      | compare o => cases o <;> cases r <;> rfl
      | _ => cases r <;> rfl
  | call r => cases r <;> rfl
  | enterTry r => cases r <;> rfl
  | endTry r => cases r <;> rfl
  | load s i =>
      cases i with
      | fixed k => revert k; cases s <;> decide
      | operand => cases s <;> rfl
  | store s i =>
      cases i with
      | fixed k => revert k; cases s <;> decide
      | operand => cases s <;> rfl
  | arith f => cases f <;> rfl
  | unary f => cases f <;> rfl
  | compare o => cases o <;> rfl
  | _ => rfl

/-! ## Mnemonics -/

private def reachSuffix : Reach → String
  | .short => ""
  | .long => "_L"

private def orderName : Comparison → String
  | .eq => "EQ"
  | .ne => "NE"
  | .gt => "GT"
  | .ge => "GE"
  | .lt => "LT"
  | .le => "LE"

private def conditionName : Condition → String
  | .always => ""
  | .ifTrue => "IF"
  | .ifFalse => "IFNOT"
  | .compare o => orderName o

private def slotName : Slot → String
  | .statics => "SFLD"
  | .locals => "LOC"
  | .arguments => "ARG"

private def indexName : SlotIndex → String
  | .fixed i => toString i.val
  | .operand => ""

def mnemonic : Opcode → String
  | pushInt w => "PUSHINT" ++ toString (w.bytes * 8)
  | pushTrue => "PUSHT"
  | pushFalse => "PUSHF"
  | pushPointer => "PUSHA"
  | pushNull => "PUSHNULL"
  | pushData w => "PUSHDATA" ++ toString w.bytes
  | pushMinusOne => "PUSHM1"
  | pushSmall n => "PUSH" ++ toString n.val
  | nop => "NOP"
  | jump c r => "JMP" ++ conditionName c ++ reachSuffix r
  | call r => "CALL" ++ reachSuffix r
  | callPointer => "CALLA"
  | callToken => "CALLT"
  | abort => "ABORT"
  | assert => "ASSERT"
  | throw => "THROW"
  | enterTry r => "TRY" ++ reachSuffix r
  | endTry r => "ENDTRY" ++ reachSuffix r
  | endFinally => "ENDFINALLY"
  | ret => "RET"
  | sysCall => "SYSCALL"
  | depth => "DEPTH"
  | drop => "DROP"
  | nip => "NIP"
  | dropAt => "XDROP"
  | clear => "CLEAR"
  | dup => "DUP"
  | overTop => "OVER"
  | pick => "PICK"
  | tuck => "TUCK"
  | swap => "SWAP"
  | rot => "ROT"
  | roll => "ROLL"
  | reverse3 => "REVERSE3"
  | reverse4 => "REVERSE4"
  | reverseN => "REVERSEN"
  | initStatics => "INITSSLOT"
  | initSlots => "INITSLOT"
  | load s i => "LD" ++ slotName s ++ indexName i
  | store s i => "ST" ++ slotName s ++ indexName i
  | newBuffer => "NEWBUFFER"
  | copyBytes => "MEMCPY"
  | cat => "CAT"
  | subString => "SUBSTR"
  | left => "LEFT"
  | right => "RIGHT"
  | arith .add => "ADD"
  | arith .sub => "SUB"
  | arith .mul => "MUL"
  | arith .div => "DIV"
  | arith .mod => "MOD"
  | arith .shl => "SHL"
  | arith .shr => "SHR"
  | arith .and => "AND"
  | arith .or => "OR"
  | arith .xor => "XOR"
  | unary .invert => "INVERT"
  | unary .sign => "SIGN"
  | unary .abs => "ABS"
  | unary .negate => "NEGATE"
  | unary .inc => "INC"
  | unary .dec => "DEC"
  | equal => "EQUAL"
  | notEqual => "NOTEQUAL"
  | pow => "POW"
  | sqrt => "SQRT"
  | modMul => "MODMUL"
  | modPow => "MODPOW"
  | not => "NOT"
  | boolAnd => "BOOLAND"
  | boolOr => "BOOLOR"
  | nonZero => "NZ"
  | compare .eq => "NUMEQUAL"
  | compare .ne => "NUMNOTEQUAL"
  | compare o => orderName o
  | min => "MIN"
  | max => "MAX"
  | within => "WITHIN"
  | packMap => "PACKMAP"
  | packStruct => "PACKSTRUCT"
  | pack => "PACK"
  | unpack => "UNPACK"
  | newArray0 => "NEWARRAY0"
  | newArray => "NEWARRAY"
  | newArrayOf => "NEWARRAY_T"
  | newStruct0 => "NEWSTRUCT0"
  | newStruct => "NEWSTRUCT"
  | newMap => "NEWMAP"
  | size => "SIZE"
  | hasKey => "HASKEY"
  | keys => "KEYS"
  | values => "VALUES"
  | pickItem => "PICKITEM"
  | append => "APPEND"
  | setItem => "SETITEM"
  | reverseItems => "REVERSEITEMS"
  | remove => "REMOVE"
  | clearItems => "CLEARITEMS"
  | popItem => "POPITEM"
  | isNull => "ISNULL"
  | isType => "ISTYPE"
  | convert => "CONVERT"
  | abortMessage => "ABORTMSG"
  | assertMessage => "ASSERTMSG"

def ofMnemonicExact? (name : String) : Option Opcode :=
  all.find? fun op => op.mnemonic == name

/-- The operation with this mnemonic; the case of ASCII letters does not count. -/
def ofMnemonic? (name : String) : Option Opcode :=
  let upper := name.map Char.toUpper
  all.find? fun op => op.mnemonic == upper

/-! ## Layout and price -/

private def reachBytes : Reach → Nat
  | .short => 1
  | .long => 4

def layout : Opcode → OperandLayout
  | pushInt w => .fixed w.bytes
  | pushPointer => .fixed 4
  | pushData w => .counted w
  | jump _ r => .fixed (reachBytes r)
  | call r => .fixed (reachBytes r)
  | callToken => .fixed 2
  | enterTry r => .fixed (2 * reachBytes r)
  | endTry r => .fixed (reachBytes r)
  | sysCall => .fixed 4
  | initStatics => .fixed 1
  | initSlots => .fixed 2
  | load _ .operand => .fixed 1
  | store _ .operand => .fixed 1
  | newArrayOf => .fixed 1
  | isType => .fixed 1
  | convert => .fixed 1
  | _ => .empty

def price : Opcode → Nat
  | pushInt .w16 => 4
  | pushInt .w32 => 4
  | pushInt _ => 1
  | pushTrue => 1
  | pushFalse => 1
  | pushPointer => 4
  | pushNull => 1
  | pushData .w1 => 8
  | pushData .w2 => 512
  | pushData .w4 => 4096
  | pushMinusOne => 1
  | pushSmall _ => 1
  | nop => 1
  | jump _ _ => 2
  | call _ => 512
  | callPointer => 512
  | callToken => 32768
  | abort => 0
  | assert => 1
  | throw => 512
  | enterTry _ => 4
  | endTry _ => 4
  | endFinally => 4
  | ret => 0
  | sysCall => 0
  | dropAt => 16
  | clear => 16
  | roll => 16
  | reverseN => 16
  | initStatics => 16
  | initSlots => 64
  | newBuffer => 256
  | copyBytes => 2048
  | cat => 2048
  | subString => 2048
  | left => 2048
  | right => 2048
  | arith _ => 8
  | unary _ => 4
  | equal => 32
  | notEqual => 32
  | pow => 64
  | sqrt => 64
  | modMul => 32
  | modPow => 2048
  | not => 4
  | boolAnd => 8
  | boolOr => 8
  | nonZero => 4
  | compare _ => 8
  | min => 8
  | max => 8
  | within => 8
  | packMap => 2048
  | packStruct => 2048
  | pack => 2048
  | unpack => 2048
  | newArray0 => 16
  | newArray => 512
  | newArrayOf => 512
  | newStruct0 => 16
  | newStruct => 512
  | newMap => 8
  | size => 4
  | hasKey => 64
  | keys => 16
  | values => 8192
  | pickItem => 64
  | append => 8192
  | setItem => 8192
  | reverseItems => 8192
  | remove => 16
  | clearItems => 16
  | popItem => 16
  | convert => 8192
  | abortMessage => 0
  | assertMessage => 1
  | _ => 2

/-! ## Classes -/

def isJump : Opcode → Bool
  | jump _ _ => true
  | _ => false

def isConditionalJump : Opcode → Bool
  | jump .always _ => false
  | jump _ _ => true
  | _ => false

def isCall : Opcode → Bool
  | call _ => true
  | _ => false

def isTry : Opcode → Bool
  | enterTry _ => true
  | _ => false

def isEndTry : Opcode → Bool
  | endTry _ => true
  | _ => false

/-- The operand is one address relative to the instruction itself. -/
def hasSingleTarget : Opcode → Bool
  | jump _ _ => true
  | call _ => true
  | endTry _ => true
  | pushPointer => true
  | _ => false

def isLong : Opcode → Bool
  | jump _ .long => true
  | call .long => true
  | enterTry .long => true
  | endTry .long => true
  | pushPointer => true
  | _ => false

/-- The same operation with long reach; an operation without a reach stays itself. -/
def toLong : Opcode → Opcode
  | jump c _ => jump c .long
  | call _ => call .long
  | enterTry _ => enterTry .long
  | endTry _ => endTry .long
  | op => op

def isIntPush : Opcode → Bool
  | pushInt _ => true
  | pushMinusOne => true
  | pushSmall _ => true
  | _ => false

def isDataPush : Opcode → Bool
  | pushData _ => true
  | _ => false

def isIndexedSlotAccess : Opcode → Bool
  | load _ .operand => true
  | store _ .operand => true
  | _ => false

/-- Ends the current invocation, by return or by fault. -/
def isTerminal : Opcode → Bool
  | ret => true
  | throw => true
  | abort => true
  | abortMessage => true
  | _ => false

/-- Transfers control somewhere other than to the next instruction. -/
def isBlockEnding : Opcode → Bool
  | jump _ _ => true
  | call _ => true
  | callPointer => true
  | enterTry _ => true
  | endTry _ => true
  | endFinally => true
  | op => op.isTerminal

def pushSmall? (value : Nat) : Option Opcode :=
  if h : value < 17 then some (pushSmall ⟨value, h⟩) else none

end Opcode

/-! ## Item types -/

/-- Type tags of stack items, as operands name them. -/
inductive ItemType where
  | any
  | pointer
  | boolean
  | integer
  | byteString
  | buffer
  | array
  | struct
  | map
  | interopInterface
  deriving DecidableEq, Repr

namespace ItemType

def ofByte? (byte : UInt8) : Option ItemType :=
  match byte.toNat with
  | 0x00 => some any
  | 0x10 => some pointer
  | 0x20 => some boolean
  | 0x21 => some integer
  | 0x28 => some byteString
  | 0x30 => some buffer
  | 0x40 => some array
  | 0x41 => some struct
  | 0x48 => some map
  | 0x60 => some interopInterface
  | _ => none

def name : ItemType → String
  | any => "Any"
  | pointer => "Pointer"
  | boolean => "Boolean"
  | integer => "Integer"
  | byteString => "ByteString"
  | buffer => "Buffer"
  | array => "Array"
  | struct => "Struct"
  | map => "Map"
  | interopInterface => "InteropInterface"

end ItemType

end NeoScript
