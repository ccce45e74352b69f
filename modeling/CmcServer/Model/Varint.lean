import CmcServer.Model.CInt

/-! # Varints

The variable-length integer codec of `protocol.c`. Memory is read through a function from
offsets to bytes, so that a read past the end of a buffer has a result, and every read reports
how many bytes it inspected. -/

namespace CmcServer

/-- The return value of a varint reader, the value it leaves in `*value` and the number of
bytes it looked at. -/
structure VarintRead where
  ret : ℤ
  value : ℤ
  inspected : ℕ
  deriving DecidableEq, Repr

/-- The loop shared by the two readers, with the shift limit and the way a group of seven bits
is added to `*value`. The loop has consumed `i` bytes and `size` bytes are left. -/
def readLoop (orInto : ℤ → UInt8 → ℕ → ℤ) (limit : ℕ) (buffer : ℕ → UInt8) :
    (size i shift : ℕ) → (value : ℤ) → VarintRead
  | 0, i, _, value => { ret := -1, value, inspected := i }
  | size + 1, i, shift, value =>
      let b := buffer i
      let value := orInto value b shift
      if b &&& 0x80 = 0 then { ret := i + 1, value, inspected := i + 1 }
      else if shift + 7 ≥ limit then { ret := -1, value, inspected := i + 1 }
      else readLoop orInto limit buffer size (i + 1) (shift + 7) value

def protocolReadVarint (buffer : ℕ → UInt8) (size value : ℤ) : VarintRead :=
  readLoop orGroup 32 buffer size.toNat 0 0 value

def protocolReadVarlong (buffer : ℕ → UInt8) (size value : ℤ) : VarintRead :=
  readLoop orGroupLong 64 buffer size.toNat 0 0 value

/-- The loop of the writer, for at most `fuel` rounds. `value & 0x7f` is the remainder by 128,
`value >>= 7` the floor of the division. -/
def writeLoop : ℕ → ℤ → Option (List UInt8)
  | 0, _ => none
  | fuel + 1, value =>
      let currentByte := UInt8.ofNat (value % 128).toNat
      let value := value / 128
      if value ≠ 0 then (writeLoop fuel value).map ((currentByte ||| 0x80) :: ·)
      else some [currentByte]

/-- `protocol_write_varlong`, the bytes it stores. It never looks at `size`. A run of the loop
that ends takes at most ten rounds, `none` is a run that does not end. -/
def protocolWriteVarlong (value : ℤ) : Option (List UInt8) := writeLoop 10 value

def protocolWriteVarint (value : ℤ) : Option (List UInt8) := protocolWriteVarlong value

end CmcServer
