import Diffingo.Spec.Unit

/-!
# The memcached specification

The module of `examples/memcached.dgo` after the compiler's resolving passes: identifiers are
resolved, items without a name have got one, and `a != b` is `!(a == b)`.
-/

namespace Diffingo.Memcached

open Diffingo.Spec

def byteOrderType : EnumType where
  id := "ByteOrder"
  labels := [("big", 0), ("little", 1)]

def magicCode : EnumType where
  id := "MemcachedMagicCode"
  labels := [
    ("REQUEST", 0x80), ("RESPONSE", 0x81)]

def opCode : EnumType where
  id := "MemcachedOpCode"
  labels := [
    ("GET", 0x00), ("SET", 0x01), ("ADD", 0x02), ("REPLACE", 0x03), ("DELETE", 0x04),
    ("INCREMENT", 0x05), ("DECREMENT", 0x06), ("QUIT", 0x07), ("FLUSH", 0x08), ("GETQ", 0x09),
    ("NOOP", 0x0a), ("VERSION", 0x0b), ("GETK", 0x0c), ("GETKQ", 0x0d), ("APPEND", 0x0e),
    ("PREPEND", 0x0f), ("STAT", 0x10), ("SETQ", 0x11), ("ADDQ", 0x12), ("REPLACEQ", 0x13),
    ("DELETEQ", 0x14), ("INCREMENTQ", 0x15), ("DECREMENTQ", 0x16), ("QUITQ", 0x17),
    ("FLUSHQ", 0x18), ("APPENDQ", 0x19), ("PREPENDQ", 0x1a), ("VERBOSITY", 0x1b), ("TOUCH", 0x1c),
    ("GAT", 0x1d), ("GATQ", 0x1e), ("SASL_LIST_MECHS", 0x20), ("SASL_AUTH", 0x21),
    ("SASL_STEP", 0x22), ("RGET", 0x30), ("RSET", 0x31), ("RSETQ", 0x32), ("RAPPEND", 0x33),
    ("RAPPENDQ", 0x34), ("RPREPEND", 0x35), ("RPREPENDQ", 0x36), ("RDELETE", 0x37),
    ("RDELETEQ", 0x38), ("RINCR", 0x39), ("RINCRQ", 0x3a), ("RDECR", 0x3b), ("RDECRQ", 0x3c),
    ("SET_VBUCKET", 0x3d), ("GET_VBUCKET", 0x3e), ("DEL_VBUCKET", 0x3f), ("TAP_CONNECT", 0x40),
    ("TAP_MUTATION", 0x41), ("TAP_DELETE", 0x42), ("TAP_FLUSH", 0x43), ("TAP_OPAQUE", 0x44),
    ("TAP_VBUCKET_SET", 0x45), ("TAP_CHECKPOINT_START", 0x46), ("TAP_CHECKPOINT_END", 0x47)]

def responseStatus : EnumType where
  id := "MemcachedResponseStatus"
  labels := [
    ("NO_ERROR", 0x0000), ("KEY_NOT_FOUND", 0x0001), ("KEY_EXISTS", 0x0002),
    ("VALUE_TOO_LARGE", 0x0003), ("INVALID_ARGUMENTS", 0x0004), ("ITEM_NOT_STORED", 0x0005),
    ("INCR_DECR_ON_NON_NUMERIC_VALUE", 0x0006), ("VBUCKET_BELONGS_TO_ANOTHER_SERVER", 0x0007),
    ("AUTHENTICATION_ERROR", 0x0008), ("AUTHENTICATION_CONTINUE", 0x0009),
    ("UNKNOWN_COMMAND", 0x0081), ("OUT_OF_MEMORY", 0x0082), ("NOT_SUPPORTED", 0x0083),
    ("INTERNAL_ERROR", 0x0084), ("BUSY", 0x0085), ("TEMPORARY_FAILURE", 0x0086)]

def uint8 : SpecType := .integer 8 false

def uint16 : SpecType := .integer 16 false

def uint32 : SpecType := .integer 32 false

/-- `self.x` inside `MemcachedCommand`. -/
def self (x : String) : Expr := .selfMember "MemcachedCommand" x

def lengthAttribute (e : Expr) : Attribute := ⟨"length", some e⟩

/-- `&parse = cast<MemcachedOpCode>(self.opcode_binary)`. -/
def opcodeParse : Expr := .binary .cast (self "opcode_binary") (.type (.enum opCode))

/-- `&serialize = if ($$ != MemcachedOpCode::UNDEF) then self.opcode_binary = cast<uint8>($$)`. -/
def opcodeSerialize : Expr :=
  .conditionalThen
    (.unary .not (.binary .equal (.parserState (.dollarDollar (.enum opCode)))
      (.constant (.enum opCode "UNDEF"))))
    (.selfAssign "MemcachedCommand" "opcode_binary"
      (.binary .cast (.parserState (.dollarDollar (.enum opCode))) (.type uint8)))

/-- `&parse = self.total_len - (self.extras_len + self.key_len)`. -/
def valueLenParse : Expr :=
  .binary .minus (self "total_len") (.binary .plus (self "extras_len") (self "key_len"))

/-- `&serialize = self.total_len = self.key_len + self.extras_len + $$`. -/
def valueLenSerialize : Expr :=
  .selfAssign "MemcachedCommand" "total_len"
    (.binary .plus (.binary .plus (self "key_len") (self "extras_len"))
      (.parserState (.dollarDollar uint32)))

def command : UnitType where
  id := "MemcachedCommand"
  module_ := some []
  items := [
    .property ⟨"byteorder", some (.constant (.enum byteOrderType "big"))⟩,
    .field { id := "magic_code", type := .enum magicCode, serializedType := some uint8,
             attributes := [⟨"transform_to", some (.type (.enum magicCode))⟩] },
    .field { id := "opcode_binary", type := uint8 },
    .var { id := "opcode", type := .enum opCode,
           attributes := [⟨"parse", some opcodeParse⟩, ⟨"serialize", some opcodeSerialize⟩] },
    .field { id := "key_len", type := uint16 },
    .field { id := "extras_len", type := uint8 },
    .field { id := "__anon1", type := .bytes, attributes := [lengthAttribute (.int 1)] },
    .switch { id := "__anon2", expression := some (self "magic_code"), cases := [
      { expressions := [.constant (.enum magicCode "REQUEST")],
        items := [{ id := "vbucket_id", type := uint16 }] },
      { expressions := [.constant (.enum magicCode "RESPONSE")],
        items := [{ id := "status", type := .enum responseStatus, serializedType := some uint16,
                    attributes := [⟨"transform_to", some (.type (.enum responseStatus))⟩] }] }] },
    .field { id := "total_len", type := uint32 },
    .field { id := "opaque", type := .bytes, attributes := [lengthAttribute (.int 4)] },
    .field { id := "cas", type := .bytes, attributes := [lengthAttribute (.int 8)] },
    .var { id := "value_len", type := uint32,
           attributes := [⟨"parse", some valueLenParse⟩, ⟨"serialize", some valueLenSerialize⟩] },
    .field { id := "extras", type := .bytes,
             attributes := [lengthAttribute (self "extras_len")] },
    .field { id := "key", type := .string, attributes := [lengthAttribute (self "key_len")] },
    .field { id := "value", type := .bytes, attributes := [lengthAttribute (self "value_len")] }]

/-- The GET request for the key `Hello`. -/
def getRequest : List UInt8 :=
  [0x80, 0x00, 0x00, 0x05, 0x00, 0x00, 0x00, 0x00, 0x00, 0x00, 0x00, 0x05, 0x00, 0x00, 0x00, 0x00,
    0x00, 0x00, 0x00, 0x00, 0x00, 0x00, 0x00, 0x00, 0x48, 0x65, 0x6c, 0x6c, 0x6f]

end Diffingo.Memcached
