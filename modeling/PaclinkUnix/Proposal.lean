import PaclinkUnix.Session

/-!
Message proposals: the record both sides keep for a message, the `FC` line that
offers it and the scanner for that line.
-/

namespace PaclinkUnix

def propLimit : Nat := 5

structure Proposal where
  code : UInt8
  type : UInt8
  mid : Bytes
  usize : Nat
  csize : Nat
  path : Option Bytes
  ubuf : Bytes
  cbuf : Bytes
  title : Bytes
  offset : Nat
  accepted : Bool
  delete : Bool
  deriving DecidableEq, Repr

/-- What the receiver keeps of a proposal line. -/
structure Incoming where
  code : UInt8
  type : UInt8
  mid : Bytes
  usize : Nat
  csize : Nat
  deriving DecidableEq, Repr

/-- `"F%c %cM %s %lu %lu 0\r"` -/
def proposalLine (prop : Proposal) : Bytes :=
  [70, prop.code, 32, prop.type, 77, 32] ++ prop.mid ++ [32] ++ decimal prop.usize ++ [32] ++
    decimal prop.csize ++ ascii " 0\r"

/-- The loop over at most `limit` bytes of the identifier. A blank ends it and is
left to be read again; the end of the string makes the line malformed. -/
def scanMid : Nat → Bytes → Option (Bytes × Bytes)
  | 0, text => some ([], text)
  | _ + 1, [] => none
  | limit + 1, char :: rest =>
      if char = 32 then some ([], char :: rest)
      else do
        let (mid, rest) ← scanMid limit rest
        some (char :: mid, rest)

/-- `*cp++ != expected` fails at the end of the string, whose NUL is never expected. -/
def expectChar (expected : UInt8) : Bytes → Option Bytes
  | [] => none
  | char :: rest => if char = expected then some rest else none

def parseProposal (line : Bytes) : Option Incoming := do
  let text ← expectChar 70 line
  match text with
  | 67 :: text =>
      let text ← expectChar 32 text
      match text with
      | [] => none
      | type :: text =>
          if type ≠ 67 ∧ type ≠ 69 then none else
          let text ← expectChar 77 text
          let text ← expectChar 32 text
          let (mid, text) ← scanMid midMaxLen text
          let text ← expectChar 32 text
          let (usize, text) := strtoul text 10
          let text ← expectChar 32 text
          let (csize, text) := strtoul text 10
          let _ ← expectChar 32 text
          some { code := 67, type := type, mid := mid, usize := usize, csize := csize % 2 ^ 32 }
  | [] => some { code := 0, type := 88, mid := [], usize := 0, csize := 0 }
  | code :: _ => some { code := code, type := 88, mid := [], usize := 0, csize := 0 }

end PaclinkUnix
