import PaclinkUnix.Crc16
import PaclinkUnix.HuffmanRebuild

/-!
The decoder of `lzhuf_1.c`. The variables that live between the calls of the codec are
arguments where a call starts from what the last one left. `none` is a run that leaves a
table, does not end, or dereferences NULL.
-/

namespace PaclinkUnix

open Memory

abbrev textBufSize : Nat := ringSize + lookahead - 1

def dCode : List Nat := [
  0x00, 0x00, 0x00, 0x00, 0x00, 0x00, 0x00, 0x00, 0x00, 0x00, 0x00, 0x00, 0x00, 0x00, 0x00, 0x00,
  0x00, 0x00, 0x00, 0x00, 0x00, 0x00, 0x00, 0x00, 0x00, 0x00, 0x00, 0x00, 0x00, 0x00, 0x00, 0x00,
  0x01, 0x01, 0x01, 0x01, 0x01, 0x01, 0x01, 0x01, 0x01, 0x01, 0x01, 0x01, 0x01, 0x01, 0x01, 0x01,
  0x02, 0x02, 0x02, 0x02, 0x02, 0x02, 0x02, 0x02, 0x02, 0x02, 0x02, 0x02, 0x02, 0x02, 0x02, 0x02,
  0x03, 0x03, 0x03, 0x03, 0x03, 0x03, 0x03, 0x03, 0x03, 0x03, 0x03, 0x03, 0x03, 0x03, 0x03, 0x03,
  0x04, 0x04, 0x04, 0x04, 0x04, 0x04, 0x04, 0x04, 0x05, 0x05, 0x05, 0x05, 0x05, 0x05, 0x05, 0x05,
  0x06, 0x06, 0x06, 0x06, 0x06, 0x06, 0x06, 0x06, 0x07, 0x07, 0x07, 0x07, 0x07, 0x07, 0x07, 0x07,
  0x08, 0x08, 0x08, 0x08, 0x08, 0x08, 0x08, 0x08, 0x09, 0x09, 0x09, 0x09, 0x09, 0x09, 0x09, 0x09,
  0x0a, 0x0a, 0x0a, 0x0a, 0x0a, 0x0a, 0x0a, 0x0a, 0x0b, 0x0b, 0x0b, 0x0b, 0x0b, 0x0b, 0x0b, 0x0b,
  0x0c, 0x0c, 0x0c, 0x0c, 0x0d, 0x0d, 0x0d, 0x0d, 0x0e, 0x0e, 0x0e, 0x0e, 0x0f, 0x0f, 0x0f, 0x0f,
  0x10, 0x10, 0x10, 0x10, 0x11, 0x11, 0x11, 0x11, 0x12, 0x12, 0x12, 0x12, 0x13, 0x13, 0x13, 0x13,
  0x14, 0x14, 0x14, 0x14, 0x15, 0x15, 0x15, 0x15, 0x16, 0x16, 0x16, 0x16, 0x17, 0x17, 0x17, 0x17,
  0x18, 0x18, 0x19, 0x19, 0x1a, 0x1a, 0x1b, 0x1b, 0x1c, 0x1c, 0x1d, 0x1d, 0x1e, 0x1e, 0x1f, 0x1f,
  0x20, 0x20, 0x21, 0x21, 0x22, 0x22, 0x23, 0x23, 0x24, 0x24, 0x25, 0x25, 0x26, 0x26, 0x27, 0x27,
  0x28, 0x28, 0x29, 0x29, 0x2a, 0x2a, 0x2b, 0x2b, 0x2c, 0x2c, 0x2d, 0x2d, 0x2e, 0x2e, 0x2f, 0x2f,
  0x30, 0x31, 0x32, 0x33, 0x34, 0x35, 0x36, 0x37, 0x38, 0x39, 0x3a, 0x3b, 0x3c, 0x3d, 0x3e, 0x3f]

def dLen : List Nat := [
  0x03, 0x03, 0x03, 0x03, 0x03, 0x03, 0x03, 0x03, 0x03, 0x03, 0x03, 0x03, 0x03, 0x03, 0x03, 0x03,
  0x03, 0x03, 0x03, 0x03, 0x03, 0x03, 0x03, 0x03, 0x03, 0x03, 0x03, 0x03, 0x03, 0x03, 0x03, 0x03,
  0x04, 0x04, 0x04, 0x04, 0x04, 0x04, 0x04, 0x04, 0x04, 0x04, 0x04, 0x04, 0x04, 0x04, 0x04, 0x04,
  0x04, 0x04, 0x04, 0x04, 0x04, 0x04, 0x04, 0x04, 0x04, 0x04, 0x04, 0x04, 0x04, 0x04, 0x04, 0x04,
  0x04, 0x04, 0x04, 0x04, 0x04, 0x04, 0x04, 0x04, 0x04, 0x04, 0x04, 0x04, 0x04, 0x04, 0x04, 0x04,
  0x05, 0x05, 0x05, 0x05, 0x05, 0x05, 0x05, 0x05, 0x05, 0x05, 0x05, 0x05, 0x05, 0x05, 0x05, 0x05,
  0x05, 0x05, 0x05, 0x05, 0x05, 0x05, 0x05, 0x05, 0x05, 0x05, 0x05, 0x05, 0x05, 0x05, 0x05, 0x05,
  0x05, 0x05, 0x05, 0x05, 0x05, 0x05, 0x05, 0x05, 0x05, 0x05, 0x05, 0x05, 0x05, 0x05, 0x05, 0x05,
  0x05, 0x05, 0x05, 0x05, 0x05, 0x05, 0x05, 0x05, 0x05, 0x05, 0x05, 0x05, 0x05, 0x05, 0x05, 0x05,
  0x06, 0x06, 0x06, 0x06, 0x06, 0x06, 0x06, 0x06, 0x06, 0x06, 0x06, 0x06, 0x06, 0x06, 0x06, 0x06,
  0x06, 0x06, 0x06, 0x06, 0x06, 0x06, 0x06, 0x06, 0x06, 0x06, 0x06, 0x06, 0x06, 0x06, 0x06, 0x06,
  0x06, 0x06, 0x06, 0x06, 0x06, 0x06, 0x06, 0x06, 0x06, 0x06, 0x06, 0x06, 0x06, 0x06, 0x06, 0x06,
  0x07, 0x07, 0x07, 0x07, 0x07, 0x07, 0x07, 0x07, 0x07, 0x07, 0x07, 0x07, 0x07, 0x07, 0x07, 0x07,
  0x07, 0x07, 0x07, 0x07, 0x07, 0x07, 0x07, 0x07, 0x07, 0x07, 0x07, 0x07, 0x07, 0x07, 0x07, 0x07,
  0x07, 0x07, 0x07, 0x07, 0x07, 0x07, 0x07, 0x07, 0x07, 0x07, 0x07, 0x07, 0x07, 0x07, 0x07, 0x07,
  0x08, 0x08, 0x08, 0x08, 0x08, 0x08, 0x08, 0x08, 0x08, 0x08, 0x08, 0x08, 0x08, 0x08, 0x08, 0x08]

/-- The compressed input, with `crc`, `getbuf` and `getlen`. -/
structure BitReader where
  inbuf : Buffer
  crc : UInt16
  getbuf : BitVec 32
  getlen : Nat
  deriving DecidableEq

namespace BitReader

def crcFgetc (reader : BitReader) : Option UInt8 × BitReader :=
  match reader.inbuf.iterchar with
  | (none, inbuf) => (none, { reader with inbuf := inbuf })
  | (some c, inbuf) => (some c, { reader with inbuf := inbuf, crc := updcrc c reader.crc })

/-- `while (getlen <= 8)`; the end of the input reads as 0. -/
def refill (reader : BitReader) : Option (BitReader ⊕ BitReader) :=
  if reader.getlen ≤ 8 then
    let (c, reader) := reader.crcFgetc
    let i : BitVec 32 := (c.getD 0).toBitVec.setWidth 32
    some (.inl { reader with
      getbuf := reader.getbuf ||| (i <<< (8 - reader.getlen))
      getlen := reader.getlen + 8 })
  else some (.inr reader)

def getBit (reader : BitReader) : Option (Nat × BitReader) := do
  let reader ← iterate refill 3 reader
  let i := reader.getbuf
  some (if i &&& 0x8000 ≠ 0 then 1 else 0,
    { reader with getbuf := reader.getbuf <<< 1, getlen := reader.getlen - 1 })

def getByte (reader : BitReader) : Option (Nat × BitReader) := do
  let reader ← iterate refill 3 reader
  let i := reader.getbuf
  some (((i >>> 8) &&& 0xff).toNat,
    { reader with getbuf := reader.getbuf <<< 8, getlen := reader.getlen - 8 })

end BitReader

/-- From the root to a leaf. -/
def descend (tree : HuffmanTree) : Nat × BitReader → Option ((Nat × BitReader) ⊕ (Nat × BitReader))
  | (c, reader) =>
      if c < tableSize then do
        let (bit, reader) ← reader.getBit
        let c ← tree.getSon (c + bit)
        some (.inl (c, reader))
      else some (.inr (c, reader))

def decodeChar (tree : HuffmanTree) (reader : BitReader) :
    Option (Nat × HuffmanTree × BitReader) := do
  let (c, reader) ← iterate (descend tree) tableSize ((← tree.getSon rootPosition), reader)
  let c := c - tableSize
  let tree ← tree.update c
  some (c, tree, reader)

def lowerBit (_ : Nat) : Nat × BitReader → Option (Nat × BitReader)
  | (i, reader) => do
      let (bit, reader) ← reader.getBit
      some ((i <<< 1) + bit, reader)

def decodePosition (reader : BitReader) : Option (Nat × BitReader) := do
  let (i, reader) ← reader.getByte
  let c := (← dCode[i]?) <<< 6
  let j := (← dLen[i]?) - 2
  let (i, reader) ← forRange j lowerBit (i, reader)
  some (c ||| (i &&& 0x3f), reader)

structure DecodeState where
  tree : HuffmanTree
  reader : BitReader
  textBuf : Nat → UInt8
  r : Nat
  count : Nat
  outbuf : Buffer

namespace DecodeState

def start (tree : HuffmanTree) (reader : BitReader) (textBuf : Nat → UInt8) : DecodeState where
  tree := tree
  reader := reader
  textBuf := textBuf
  r := ringSize - lookahead
  count := 0
  outbuf := .new

def emit (c : UInt8) (state : DecodeState) : Option DecodeState := do
  let textBuf ← store textBufSize state.textBuf state.r c
  some { state with
    outbuf := state.outbuf.addchar c
    textBuf := textBuf
    r := (state.r + 1) % ringSize
    count := state.count + 1 }

def copyChar (i k : Nat) (state : DecodeState) : Option DecodeState := do
  state.emit (← load textBufSize state.textBuf ((i + k) % ringSize))

/-- One symbol, with its position if it is a length. -/
def token (state : DecodeState) : Option DecodeState := do
  let (c, tree, reader) ← decodeChar state.tree state.reader
  let state := { state with tree := tree, reader := reader }
  if c < 256 then state.emit (UInt8.ofNat c)
  else do
    let (position, reader) ← decodePosition state.reader
    let i := (((state.r : Int) - position - 1) % ringSize).toNat
    let j := c - 255 + threshold
    forRange j (copyChar i) { state with reader := reader }

/-- `for (count = 0; count < textsize; )` -/
def decodeLoop (textsize : Nat) (state : DecodeState) : Option (DecodeState ⊕ DecodeState) :=
  if state.count < textsize then do
    let state ← state.token
    some (.inl state)
  else some (.inr state)

end DecodeState

def fillBlank (i : Nat) (textBuf : Nat → UInt8) : Option (Nat → UInt8) :=
  store textBufSize textBuf i 32

/-- The first four bytes, if they are there. -/
def readHeader (reader : BitReader) : Option Nat × BitReader :=
  match reader.crcFgetc with
  | (none, reader) => (none, reader)
  | (some x, reader) =>
    let textsize := x.toNat
    match reader.crcFgetc with
    | (none, reader) => (none, reader)
    | (some x, reader) =>
      let textsize := textsize ||| x.toNat <<< 8
      match reader.crcFgetc with
      | (none, reader) => (none, reader)
      | (some x, reader) =>
        let textsize := textsize ||| x.toNat <<< 16
        match reader.crcFgetc with
        | (none, reader) => (none, reader)
        | (some x, reader) => (some (textsize ||| x.toNat <<< 24), reader)

/-- The buffer, or NULL, and the state of the reader, with the CRC of all it has read. -/
def decode (tree : HuffmanTree) (textBuf : Nat → UInt8) (inbuf : Buffer) :
    Option (Option Buffer × BitReader) :=
  match readHeader { inbuf := inbuf, crc := 0, getbuf := 0, getlen := 0 } with
  | (none, reader) => some (none, reader)
  | (some textsize, reader) =>
      if textsize = 0 then some (some .new, reader)
      else do
        let tree ← tree.startHuff
        let textBuf ← forRange (ringSize - lookahead) fillBlank textBuf
        let state ← iterate (DecodeState.decodeLoop textsize) (textsize + 1)
          (.start tree reader textBuf)
        some (some state.outbuf, state.reader)

def bufferFree : Option Buffer → Option Unit
  | none => none
  | some _ => some ()

def version1Decode (tree : HuffmanTree) (textBuf : Nat → UInt8) (crc : UInt16) (inbuf : Buffer) :
    Option (Option Buffer) :=
  match ({ inbuf := inbuf, crc := crc, getbuf := 0, getlen := 0 } : BitReader).crcFgetc with
  | (none, _) => some none
  | (some low, reader) =>
    match reader.crcFgetc with
    | (none, _) => some none
    | (some high, reader) => do
        let crcRead := low.toUInt16 ||| high.toUInt16 <<< 8
        let (outbuf, reader) ← decode tree textBuf reader.inbuf
        if reader.crc ≠ crcRead then do
          bufferFree outbuf
          some none
        else some outbuf

end PaclinkUnix
