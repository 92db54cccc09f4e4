import PaclinkUnix.SearchTree

/-!
The encoder of `lzhuf_1.c`. As in the decoder, `none` is a run that leaves a table, does
not end, or is undefined, as a shift by a negative number is; a NULL or an error return is
`some none`.
-/

namespace PaclinkUnix

open Memory

def pLen : List Nat := [
  0x03, 0x04, 0x04, 0x04, 0x05, 0x05, 0x05, 0x05, 0x05, 0x05, 0x05, 0x05, 0x06, 0x06, 0x06, 0x06,
  0x06, 0x06, 0x06, 0x06, 0x06, 0x06, 0x06, 0x06, 0x07, 0x07, 0x07, 0x07, 0x07, 0x07, 0x07, 0x07,
  0x07, 0x07, 0x07, 0x07, 0x07, 0x07, 0x07, 0x07, 0x07, 0x07, 0x07, 0x07, 0x07, 0x07, 0x07, 0x07,
  0x08, 0x08, 0x08, 0x08, 0x08, 0x08, 0x08, 0x08, 0x08, 0x08, 0x08, 0x08, 0x08, 0x08, 0x08, 0x08]

def pCode : List Nat := [
  0x00, 0x20, 0x30, 0x40, 0x50, 0x58, 0x60, 0x68, 0x70, 0x78, 0x80, 0x88, 0x90, 0x94, 0x98, 0x9c,
  0xa0, 0xa4, 0xa8, 0xac, 0xb0, 0xb4, 0xb8, 0xbc, 0xc0, 0xc2, 0xc4, 0xc6, 0xc8, 0xca, 0xcc, 0xce,
  0xd0, 0xd2, 0xd4, 0xd6, 0xd8, 0xda, 0xdc, 0xde, 0xe0, 0xe2, 0xe4, 0xe6, 0xe8, 0xea, 0xec, 0xee,
  0xf0, 0xf1, 0xf2, 0xf3, 0xf4, 0xf5, 0xf6, 0xf7, 0xf8, 0xf9, 0xfa, 0xfb, 0xfc, 0xfd, 0xfe, 0xff]

/-- The output, with `crc`, `putbuf` and `putlen`. -/
structure BitWriter where
  outbuf : Buffer
  crc : UInt16
  putbuf : BitVec 32
  putlen : Nat
  deriving DecidableEq

namespace BitWriter

def crcFputc (c : UInt8) (writer : BitWriter) : BitWriter :=
  { writer with crc := updcrc c writer.crc, outbuf := writer.outbuf.addchar c }

/-- The lower eight bits, as `crc_fputc` takes them. -/
def fputBits (c : BitVec 32) (writer : BitWriter) : BitWriter :=
  writer.crcFputc (UInt8.ofBitVec (c.setWidth 8))

def shiftRight (c : BitVec 32) (n : Nat) : Option (BitVec 32) :=
  if n < 32 then some (c >>> n) else none

def shiftLeft (c : BitVec 32) (l n : Nat) : Option (BitVec 32) :=
  if n ≤ l ∧ l - n < 32 then some (c <<< (l - n)) else none

/-- `l` bits of `c`, the first one the bit 15. -/
def putcode (l : Nat) (c : BitVec 32) (writer : BitWriter) : Option BitWriter := do
  let writer := { writer with putbuf := writer.putbuf ||| (← shiftRight c writer.putlen) }
  let putlen := (writer.putlen + l) % 256
  if 8 ≤ putlen then
    let writer := writer.fputBits (writer.putbuf >>> 8)
    let putlen := putlen - 8
    if 8 ≤ putlen then
      let writer := writer.fputBits writer.putbuf
      let putlen := putlen - 8
      some { writer with putbuf := (← shiftLeft c l putlen), putlen := putlen }
    else some { writer with putbuf := writer.putbuf <<< 8, putlen := putlen }
  else some { writer with putlen := putlen }

end BitWriter

structure EntropyCoder where
  tree : HuffmanTree
  writer : BitWriter

/-- From a leaf to the root: the code in 16 bits, and its length. -/
def climbStep (tree : HuffmanTree) : Nat × BitVec 32 × Nat →
    Option ((Nat × BitVec 32 × Nat) ⊕ Option (BitVec 32 × Nat))
  | (k, i, j) => do
      let i := i >>> 1
      let i := if k % 2 = 1 then i + 0x8000 else i
      let j := j + 1
      if k = (← tree.getPrnt k) ∧ k ≠ rootPosition then some (.inr none)
      else do
        let k ← tree.getPrnt k
        if k ≠ rootPosition then some (.inl (k, i, j)) else some (.inr (some (i, j)))

namespace EntropyCoder

def encodeChar (c : Nat) (coder : EntropyCoder) : Option (Option EntropyCoder) := do
  let k ← coder.tree.getPrnt (c + tableSize)
  match ← iterate (climbStep coder.tree) tableSize (k, 0, 0) with
  | none => some none
  | some (i, j) => do
      let writer ← coder.writer.putcode j i
      let tree ← coder.tree.update c
      some (some { tree := tree, writer := writer })

def encodePosition (c : Nat) (coder : EntropyCoder) : Option EntropyCoder := do
  let i := c >>> 6
  let writer ← coder.writer.putcode (← pLen[i]?) (BitVec.ofNat 32 (← pCode[i]?) <<< 8)
  let writer ← writer.putcode 6 (BitVec.ofNat 32 ((c &&& 0x3f) <<< 10))
  some { coder with writer := writer }

def encodeEnd (coder : EntropyCoder) : BitWriter :=
  if coder.writer.putlen ≠ 0 then coder.writer.fputBits (coder.writer.putbuf >>> 8)
  else coder.writer

end EntropyCoder

/-- What the match finder hands to the entropy coder. -/
inductive Token where
  | literal (c : UInt8)
  | copy (length position : Nat)
  deriving DecidableEq, Repr

namespace EntropyCoder

def encodeToken (token : Token) (coder : EntropyCoder) : Option (Option EntropyCoder) :=
  match token with
  | .literal c => coder.encodeChar c.toNat
  | .copy length position => do
      match ← coder.encodeChar (255 - threshold + length) with
      | none => some none
      | some coder => do
          let coder ← coder.encodePosition position
          some (some coder)

end EntropyCoder

/-- The ring around the next character, `r`; the input from there on is in it as far as
`len`. -/
structure Window where
  search : SearchTree
  inbuf : Buffer
  len : Nat
  s : Nat
  r : Nat

namespace Window

def setBlank (i : Nat) (search : SearchTree) : Option SearchTree := search.setText i 32

/-- `for (len = 0; len < F && (c = buffer_iterchar(inbuf)) != EOF; len++)` -/
def readAhead (r : Nat) : Nat × Buffer × SearchTree →
    Option ((Nat × Buffer × SearchTree) ⊕ (Nat × Buffer × SearchTree))
  | (len, inbuf, search) =>
      if len < lookahead then
        match inbuf.iterchar with
        | (none, inbuf) => some (.inr (len, inbuf, search))
        | (some c, inbuf) => do
            let search ← search.setText (r + len) c
            some (.inl (len + 1, inbuf, search))
      else some (.inr (len, inbuf, search))

def insertBlank (r i : Nat) (search : SearchTree) : Option SearchTree :=
  search.insertNode (r - (i + 1))

def start (search : SearchTree) (inbuf : Buffer) : Option Window := do
  let r := ringSize - lookahead
  let search ← search.initTree
  let search ← forRange r setBlank search
  let (len, inbuf, search) ← iterate (readAhead r) (lookahead + 1) (0, inbuf.rewind, search)
  let search ← forRange lookahead (insertBlank r) search
  let search ← search.insertNode r
  some { search := search, inbuf := inbuf, len := len, s := 0, r := r }

/-- A match is no longer than what is left of the input, and a short one is none. -/
def nextToken (window : Window) : Option (Token × Window) := do
  let length := min window.search.matchLength window.len
  if length ≤ threshold then
    let c ← window.search.getText window.r
    some (.literal c, { window with search := { window.search with matchLength := 1 } })
  else
    some (.copy length window.search.matchPosition,
      { window with search := { window.search with matchLength := length } })

/-- A new character takes the place of the oldest one. -/
def readOn (last : Nat) : Nat × Window → Option ((Nat × Window) ⊕ (Nat × Window))
  | (i, window) =>
      if i < last then
        match window.inbuf.iterchar with
        | (none, inbuf) => some (.inr (i, { window with inbuf := inbuf }))
        | (some c, inbuf) => do
            let search ← window.search.deleteNode window.s
            let search ← search.setText window.s c
            let search ←
              if window.s < lookahead - 1 then search.setText (window.s + ringSize) c
              else some search
            let s := (window.s + 1) % ringSize
            let r := (window.r + 1) % ringSize
            let search ← search.insertNode r
            some (.inl (i + 1,
              { window with search := search, inbuf := inbuf, s := s, r := r }))
      else some (.inr (i, window))

def runOut (last : Nat) : Nat × Window → Option ((Nat × Window) ⊕ Window)
  | (i, window) =>
      if i < last then do
        let search ← window.search.deleteNode window.s
        let s := (window.s + 1) % ringSize
        let r := (window.r + 1) % ringSize
        let len := window.len - 1
        let search ← if len ≠ 0 then search.insertNode r else some search
        some (.inl (i + 1, { window with search := search, len := len, s := s, r := r }))
      else some (.inr window)

def advance (last : Nat) (window : Window) : Option Window := do
  let (i, window) ← iterate (readOn last) (last + 1) (0, window)
  iterate (runOut last) (last + 1) (i, window)

variable {σ : Type}

/-- The main loop, with the calls of the entropy coder as `sink`. -/
def encodeLoop (sink : Token → σ → Option (Option σ)) :
    Window × σ → Option ((Window × σ) ⊕ Option σ)
  | (window, coder) => do
      let (token, window) ← window.nextToken
      match ← sink token coder with
      | none => some (.inr none)
      | some coder => do
          let window ← window.advance window.search.matchLength
          if 0 < window.len then some (.inl (window, coder)) else some (.inr (some coder))

end Window

/-- The four bytes of `textsize`. -/
def putSize (textsize : Nat) : BitWriter :=
  let writer : BitWriter := { outbuf := .new, crc := 0, putbuf := 0, putlen := 0 }
  let writer := writer.crcFputc (UInt8.ofNat (textsize &&& 0xff))
  let writer := writer.crcFputc (UInt8.ofNat ((textsize >>> 8) &&& 0xff))
  let writer := writer.crcFputc (UInt8.ofNat ((textsize >>> 16) &&& 0xff))
  writer.crcFputc (UInt8.ofNat ((textsize >>> 24) &&& 0xff))

/-- The coded buffer with its `crc`, or NULL. -/
def encode (tree : HuffmanTree) (search : SearchTree) (inbuf : Buffer) :
    Option (Option BitWriter) := do
  let textsize := inbuf.data.length % 2 ^ 32
  let writer := putSize textsize
  if textsize = 0 then some (some writer)
  else do
    let tree ← tree.startHuff
    let window ← Window.start search inbuf
    match ← iterate (Window.encodeLoop EntropyCoder.encodeToken) (inbuf.data.length + 1)
        (window, { tree := tree, writer := writer }) with
    | none => some none
    | some coder => some (some coder.encodeEnd)

def version1Encode (tree : HuffmanTree) (search : SearchTree) (inbuf : Buffer) :
    Option (Option Buffer) := do
  match ← encode tree search inbuf with
  | none => some none
  | some writer => do
      let outbuf := Buffer.new
      let outbuf := outbuf.addchar (writer.crc &&& 0xff).toUInt8
      let outbuf := outbuf.addchar ((writer.crc >>> 8) &&& 0xff).toUInt8
      let outbuf ← outbuf.addbuf (writer.outbuf.data.length + 1) writer.outbuf
      some (some outbuf)

end PaclinkUnix
