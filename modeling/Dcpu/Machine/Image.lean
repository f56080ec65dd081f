import Dcpu.Machine.Word

/-! Binary images: words as bytes in either order, and bytes read back as words. -/
namespace Dcpu

inductive Endian where
  | big | little
  deriving DecidableEq, Repr

namespace Word

def lowByte (w : Word) : UInt8 := w.toUInt8

def highByte (w : Word) : UInt8 := (w >>> 8).toUInt8

def ofBytes (low high : UInt8) : Word := low.toUInt16 ||| (high.toUInt16 <<< 8)

def bytes (order : Endian) (w : Word) : List UInt8 :=
  match order with
  | .big => [w.highByte, w.lowByte]
  | .little => [w.lowByte, w.highByte]

end Word

namespace Image

def toBytes (order : Endian) (ws : List Word) : List UInt8 := ws.flatMap (Word.bytes order)

/-- One word for each byte. -/
def spread (bs : List UInt8) : List Word := bs.map UInt8.toUInt16

/-- Two bytes for each word, the low one first; a last single byte is a low one. -/
def pack : List UInt8 → List Word
  | [] => []
  | [low] => [Word.ofBytes low 0]
  | low :: high :: rest => Word.ofBytes low high :: pack rest

end Image

end Dcpu
