import PaclinkUnix.Text

/-!
The message digest of `md5.c`, which the secure login uses. Words are taken from and put
into bytes with the low byte first, as `SWAP` arranges on either kind of machine.
-/

namespace PaclinkUnix

def ff (b c d : UInt32) : UInt32 := d ^^^ (b &&& (c ^^^ d))
def fg (b c d : UInt32) : UInt32 := ff d b c
def fh (b c d : UInt32) : UInt32 := b ^^^ c ^^^ d
def fi (b c d : UInt32) : UInt32 := c ^^^ (b ||| ~~~d)

def cyclic (w s : UInt32) : UInt32 := (w <<< s) ||| (w >>> (32 - s))

structure Sums where
  a : UInt32
  b : UInt32
  c : UInt32
  d : UInt32
  deriving DecidableEq, Repr

namespace Sums

/-- `OP1` and `OP234`, which differ only in where the word comes from. -/
def op (func : UInt32 → UInt32 → UInt32 → UInt32) (a b c d k s t : UInt32) : UInt32 :=
  cyclic (a + (func b c d + k + t)) s + b

def opA (sums : Sums) (func : UInt32 → UInt32 → UInt32 → UInt32) (k s t : UInt32) : Sums :=
  { sums with a := op func sums.a sums.b sums.c sums.d k s t }

def opB (sums : Sums) (func : UInt32 → UInt32 → UInt32 → UInt32) (k s t : UInt32) : Sums :=
  { sums with b := op func sums.b sums.c sums.d sums.a k s t }

def opC (sums : Sums) (func : UInt32 → UInt32 → UInt32 → UInt32) (k s t : UInt32) : Sums :=
  { sums with c := op func sums.c sums.d sums.a sums.b k s t }

def opD (sums : Sums) (func : UInt32 → UInt32 → UInt32 → UInt32) (k s t : UInt32) : Sums :=
  { sums with d := op func sums.d sums.a sums.b sums.c k s t }

def add (sums save : Sums) : Sums where
  a := sums.a + save.a
  b := sums.b + save.b
  c := sums.c + save.c
  d := sums.d + save.d

end Sums

def correctWord (correct : List UInt32) (k : Nat) : UInt32 := correct.getD k 0

def round1 (correct : List UInt32) (sums : Sums) : Sums :=
  sums
    |>.opA ff (correctWord correct 0) 7 0xd76aa478 |>.opD ff (correctWord correct 1) 12 0xe8c7b756
    |>.opC ff (correctWord correct 2) 17 0x242070db |>.opB ff (correctWord correct 3) 22 0xc1bdceee
    |>.opA ff (correctWord correct 4) 7 0xf57c0faf |>.opD ff (correctWord correct 5) 12 0x4787c62a
    |>.opC ff (correctWord correct 6) 17 0xa8304613 |>.opB ff (correctWord correct 7) 22 0xfd469501
    |>.opA ff (correctWord correct 8) 7 0x698098d8 |>.opD ff (correctWord correct 9) 12 0x8b44f7af
    |>.opC ff (correctWord correct 10) 17 0xffff5bb1 |>.opB ff (correctWord correct 11) 22 0x895cd7be
    |>.opA ff (correctWord correct 12) 7 0x6b901122 |>.opD ff (correctWord correct 13) 12 0xfd987193
    |>.opC ff (correctWord correct 14) 17 0xa679438e |>.opB ff (correctWord correct 15) 22 0x49b40821

def round2 (correct : List UInt32) (sums : Sums) : Sums :=
  sums
    |>.opA fg (correctWord correct 1) 5 0xf61e2562 |>.opD fg (correctWord correct 6) 9 0xc040b340
    |>.opC fg (correctWord correct 11) 14 0x265e5a51 |>.opB fg (correctWord correct 0) 20 0xe9b6c7aa
    |>.opA fg (correctWord correct 5) 5 0xd62f105d |>.opD fg (correctWord correct 10) 9 0x02441453
    |>.opC fg (correctWord correct 15) 14 0xd8a1e681 |>.opB fg (correctWord correct 4) 20 0xe7d3fbc8
    |>.opA fg (correctWord correct 9) 5 0x21e1cde6 |>.opD fg (correctWord correct 14) 9 0xc33707d6
    |>.opC fg (correctWord correct 3) 14 0xf4d50d87 |>.opB fg (correctWord correct 8) 20 0x455a14ed
    |>.opA fg (correctWord correct 13) 5 0xa9e3e905 |>.opD fg (correctWord correct 2) 9 0xfcefa3f8
    |>.opC fg (correctWord correct 7) 14 0x676f02d9 |>.opB fg (correctWord correct 12) 20 0x8d2a4c8a

def round3 (correct : List UInt32) (sums : Sums) : Sums :=
  sums
    |>.opA fh (correctWord correct 5) 4 0xfffa3942 |>.opD fh (correctWord correct 8) 11 0x8771f681
    |>.opC fh (correctWord correct 11) 16 0x6d9d6122 |>.opB fh (correctWord correct 14) 23 0xfde5380c
    |>.opA fh (correctWord correct 1) 4 0xa4beea44 |>.opD fh (correctWord correct 4) 11 0x4bdecfa9
    |>.opC fh (correctWord correct 7) 16 0xf6bb4b60 |>.opB fh (correctWord correct 10) 23 0xbebfbc70
    |>.opA fh (correctWord correct 13) 4 0x289b7ec6 |>.opD fh (correctWord correct 0) 11 0xeaa127fa
    |>.opC fh (correctWord correct 3) 16 0xd4ef3085 |>.opB fh (correctWord correct 6) 23 0x04881d05
    |>.opA fh (correctWord correct 9) 4 0xd9d4d039 |>.opD fh (correctWord correct 12) 11 0xe6db99e5
    |>.opC fh (correctWord correct 15) 16 0x1fa27cf8 |>.opB fh (correctWord correct 2) 23 0xc4ac5665

def round4 (correct : List UInt32) (sums : Sums) : Sums :=
  sums
    |>.opA fi (correctWord correct 0) 6 0xf4292244 |>.opD fi (correctWord correct 7) 10 0x432aff97
    |>.opC fi (correctWord correct 14) 15 0xab9423a7 |>.opB fi (correctWord correct 5) 21 0xfc93a039
    |>.opA fi (correctWord correct 12) 6 0x655b59c3 |>.opD fi (correctWord correct 3) 10 0x8f0ccc92
    |>.opC fi (correctWord correct 10) 15 0xffeff47d |>.opB fi (correctWord correct 1) 21 0x85845dd1
    |>.opA fi (correctWord correct 8) 6 0x6fa87e4f |>.opD fi (correctWord correct 15) 10 0xfe2ce6e0
    |>.opC fi (correctWord correct 6) 15 0xa3014314 |>.opB fi (correctWord correct 13) 21 0x4e0811a1
    |>.opA fi (correctWord correct 4) 6 0xf7537e82 |>.opD fi (correctWord correct 11) 10 0xbd3af235
    |>.opC fi (correctWord correct 2) 15 0x2ad7d2bb |>.opB fi (correctWord correct 9) 21 0xeb86d391

def littleWord (bytes : Bytes) : UInt32 :=
  (bytes.getD 0 0).toUInt32 ||| ((bytes.getD 1 0).toUInt32 <<< 8) |||
    ((bytes.getD 2 0).toUInt32 <<< 16) ||| ((bytes.getD 3 0).toUInt32 <<< 24)

def wordBytes (hold : UInt32) : Bytes :=
  [hold.toUInt8, (hold >>> 8).toUInt8, (hold >>> 16).toUInt8, (hold >>> 24).toUInt8]

/-- The `correct` array after the first round has filled it. -/
def correctWords (block : Bytes) : List UInt32 :=
  (List.range 16).map fun i => littleWord (block.drop (4 * i))

def oneBlock (sums : Sums) (block : Bytes) : Sums :=
  let correct := correctWords block
  (round4 correct (round3 correct (round2 correct (round1 correct sums)))).add sums

def md5BlockSize : Nat := 64
def md5BufferSize : Nat := 2 * md5BlockSize

structure Md5 where
  sums : Sums
  total0 : UInt32
  total1 : UInt32
  bufLen : Nat
  buffer : Bytes
  deriving DecidableEq, Repr

/-- Add to the byte count, with the carry between its two words. -/
def countBytes (md5 : Md5) (bufLen : UInt32) : Md5 :=
  if 0xffffffff - bufLen < md5.total0 then
    { md5 with
      total1 := md5.total1 + 1
      total0 := md5.total0 - (0xffffffff + 1 - bufLen) }
  else { md5 with total0 := md5.total0 + bufLen }

/-- `while (buf_p < end_p)`: each round reads a whole block, and reading behind the bytes
that were given is a fault. -/
def blockLoop : Nat → Sums → Bytes → Option Sums
  | 0, _, _ => none
  | fuel + 1, sums, buffer =>
      if buffer.length / 4 = 0 then some sums
      else if buffer.length < md5BlockSize then none
      else blockLoop fuel (oneBlock sums (buffer.take md5BlockSize)) (buffer.drop md5BlockSize)

def processBlock (md5 : Md5) (buffer : Bytes) : Option Md5 := do
  let md5 := countBytes md5 (UInt32.ofNat buffer.length)
  let sums ← blockLoop (buffer.length + 1) md5.sums buffer
  some { md5 with sums := sums }

/-- Copying beyond the end of the destination is a fault. -/
def memcpy (dest : Bytes) (offset : Nat) (source : Bytes) : Option Bytes :=
  if offset + source.length ≤ dest.length then
    some (dest.take offset ++ source ++ dest.drop (offset + source.length))
  else none

def md5Init (buffer : Bytes) : Md5 where
  sums := ⟨0x67452301, 0xefcdab89, 0x98badcfe, 0x10325476⟩
  total0 := 0
  total1 := 0
  bufLen := 0
  buffer := buffer

/-- The bytes in front of the last incomplete block, `len & ~BLOCK_SIZE_MASK`. -/
def wholeLen (len : Nat) : Nat := len - len % md5BlockSize

/-- Fill up what the internal buffer holds: the context and the bytes not yet taken. -/
def fillBuffer (md5 : Md5) (buffer : Bytes) : Option (Md5 × Bytes) := do
  let inBlock := md5.bufLen
  let add := if md5BufferSize < (inBlock + buffer.length) % 2 ^ 32 then md5BufferSize - inBlock
    else buffer.length
  let held ← memcpy md5.buffer inBlock (buffer.take add)
  let inBlock := inBlock + add
  let md5 := { md5 with buffer := held, bufLen := inBlock }
  if md5BlockSize < inBlock then do
    let md5 ← processBlock md5 (held.take (wholeLen inBlock))
    let rest ← memcpy held 0 ((held.drop (wholeLen inBlock)).take (inBlock % md5BlockSize))
    some ({ md5 with buffer := rest, bufLen := inBlock % md5BlockSize }, buffer.drop add)
  else some (md5, buffer.drop add)

/-- Process the whole blocks of the caller's buffer and keep the rest. -/
def keepRest (md5 : Md5) (buffer : Bytes) : Option Md5 := do
  let (md5, buffer) ←
    if md5BlockSize < buffer.length then do
      let md5 ← processBlock md5 (buffer.take (wholeLen buffer.length))
      some (md5, buffer.drop (wholeLen buffer.length))
    else some (md5, buffer)
  if 0 < buffer.length then do
    let held ← memcpy md5.buffer 0 buffer
    some { md5 with buffer := held, bufLen := buffer.length }
  else some md5

def md5Process (md5 : Md5) (buffer : Bytes) : Option Md5 :=
  if 0 < md5.bufLen then do
    let (md5, buffer) ← fillBuffer md5 buffer
    keepRest md5 buffer
  else keepRest md5 buffer

def md5GetResult (md5 : Md5) : Bytes :=
  wordBytes md5.sums.a ++ wordBytes md5.sums.b ++ wordBytes md5.sums.c ++ wordBytes md5.sums.d

/-- `pad`, a signed number that one more block makes positive. -/
def padLen (bytes : Nat) : Nat :=
  let pad : Int := 64 - 8 - bytes
  (if pad ≤ 0 then pad + 64 else pad).toNat

/-- `md5_finish` behind the count of the remaining bytes. -/
def padBuffer (md5 : Md5) (bytes : Nat) : Option Bytes := do
  let pad := padLen bytes
  let held ← memcpy md5.buffer bytes (0x80 :: List.replicate (pad - 1) 0)
  let bytes := bytes + pad
  let held ← memcpy held bytes (wordBytes ((md5.total0 &&& 0x1fffffff) <<< 3))
  let bytes := bytes + 4
  let held ← memcpy held bytes
    (wordBytes ((md5.total1 <<< 3) ||| ((md5.total0 &&& 0xe0000000) >>> 29)))
  let bytes := bytes + 4
  let md5 ← processBlock { md5 with buffer := held } (held.take bytes)
  some (md5GetResult md5)

def md5Finish (md5 : Md5) : Option Bytes :=
  padBuffer (countBytes md5 (UInt32.ofNat md5.bufLen)) md5.bufLen

/-- The context is on the stack; `uninit` is what its buffer holds. -/
def md5Buffer (uninit buffer : Bytes) (bufLen : Nat) : Option Bytes := do
  let md5 ← md5Process (md5Init uninit) (buffer.take bufLen)
  md5Finish md5

end PaclinkUnix
