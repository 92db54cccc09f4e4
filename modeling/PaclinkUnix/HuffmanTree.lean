import PaclinkUnix.Library.Memory

/-!
The adaptive Huffman tree of `lzhuf_1.c`: a table of nodes in the order of their
frequencies, the root last. `son` is the first of two neighbouring sons, or a symbol
behind the table; `prnt` leads back, and from a symbol to its leaf.
-/

namespace PaclinkUnix

open Memory

abbrev ringSize : Nat := 2048
abbrev lookahead : Nat := 60
abbrev threshold : Nat := 2

abbrev nChar : Nat := 256 - threshold + lookahead

abbrev tableSize : Nat := nChar * 2 - 1
abbrev rootPosition : Nat := tableSize - 1
abbrev maxFreq : Nat := 0x8000
abbrev sentinel : Nat := 0xffff

structure HuffmanTree where
  freq : Nat → Nat
  prnt : Nat → Nat
  son : Nat → Nat

namespace HuffmanTree

def getFreq (tree : HuffmanTree) (i : Nat) : Option Nat := load (tableSize + 1) tree.freq i
def getPrnt (tree : HuffmanTree) (i : Nat) : Option Nat := load (tableSize + nChar) tree.prnt i
def getSon (tree : HuffmanTree) (i : Nat) : Option Nat := load tableSize tree.son i

def setFreq (tree : HuffmanTree) (i value : Nat) : Option HuffmanTree := do
  let freq ← store (tableSize + 1) tree.freq i value
  some { tree with freq := freq }

def setPrnt (tree : HuffmanTree) (i value : Nat) : Option HuffmanTree := do
  let prnt ← store (tableSize + nChar) tree.prnt i value
  some { tree with prnt := prnt }

def setSon (tree : HuffmanTree) (i value : Nat) : Option HuffmanTree := do
  let son ← store tableSize tree.son i value
  some { tree with son := son }

section Access

variable {tree : HuffmanTree} {i value : Nat}

theorem getFreq_some (inside : i < tableSize + 1) : tree.getFreq i = some (tree.freq i) :=
  load_some inside

theorem getPrnt_some (inside : i < tableSize + nChar) : tree.getPrnt i = some (tree.prnt i) :=
  load_some inside

theorem getSon_some (inside : i < tableSize) : tree.getSon i = some (tree.son i) :=
  load_some inside

theorem setFreq_some (inside : i < tableSize + 1) :
    tree.setFreq i value = some { tree with freq := put tree.freq i value } := by
  rw [setFreq, store_some inside]
  rfl

theorem setPrnt_some (inside : i < tableSize + nChar) :
    tree.setPrnt i value = some { tree with prnt := put tree.prnt i value } := by
  rw [setPrnt, store_some inside]
  rfl

theorem setSon_some (inside : i < tableSize) :
    tree.setSon i value = some { tree with son := put tree.son i value } := by
  rw [setSon, store_some inside]
  rfl

end Access

/-- `prnt[s] = i`, and `prnt[s + 1] = i` too where `s` is a node. -/
def adopt (tree : HuffmanTree) (s i : Nat) : Option HuffmanTree := do
  let tree ← tree.setPrnt s i
  if s < tableSize then tree.setPrnt (s + 1) i else some tree

def startLeaf (i : Nat) (tree : HuffmanTree) : Option HuffmanTree := do
  let tree ← tree.setFreq i 1
  let tree ← tree.setSon i (i + tableSize)
  tree.setPrnt (i + tableSize) i

def startNode : Nat × Nat × HuffmanTree → Option ((Nat × Nat × HuffmanTree) ⊕ HuffmanTree)
  | (i, j, tree) =>
      if j ≤ rootPosition then do
        let tree ← tree.setFreq j ((← tree.getFreq i) + (← tree.getFreq (i + 1)))
        let tree ← tree.setSon j i
        let tree ← tree.setPrnt (i + 1) j
        let tree ← tree.setPrnt i j
        some (.inl (i + 2, j + 1, tree))
      else some (.inr tree)

def startHuff (tree : HuffmanTree) : Option HuffmanTree := do
  let tree ← forRange nChar startLeaf tree
  let tree ← iterate startNode tableSize (0, nChar, tree)
  let tree ← tree.setFreq tableSize sentinel
  tree.setPrnt rootPosition 0

/-- Leaves move to the front of the table, with half their frequency. -/
def collectLeaf (i : Nat) : Nat × HuffmanTree → Option (Nat × HuffmanTree)
  | (j, tree) => do
      if tableSize ≤ (← tree.getSon i) then
        let tree ← tree.setFreq j (((← tree.getFreq i) + 1) / 2)
        let tree ← tree.setSon j (← tree.getSon i)
        some (j + 1, tree)
      else some (j, tree)

/-- `for (; first < freq[k]; k--)` -/
def findPlace (tree : HuffmanTree) (first : Nat) : Nat → Option (Nat ⊕ Nat)
  | k => do
      if first < (← tree.getFreq k) then
        if k = 0 then none else some (.inl (k - 1))
      else some (.inr k)

def moveFreq (tree : HuffmanTree) (k count : Nat) : Option HuffmanTree := do
  let freq ← moveUp (tableSize + 1) tree.freq k count
  some { tree with freq := freq }

def moveSon (tree : HuffmanTree) (k count : Nat) : Option HuffmanTree := do
  let son ← moveUp tableSize tree.son k count
  some { tree with son := son }

theorem moveFreq_some {tree : HuffmanTree} {k count : Nat} (inside : k + count < tableSize + 1) :
    tree.moveFreq k count = some { tree with freq := shift tree.freq k count } := by
  rw [moveFreq, moveUp_some inside]
  rfl

theorem moveSon_some {tree : HuffmanTree} {k count : Nat} (inside : k + count < tableSize) :
    tree.moveSon k count = some { tree with son := shift tree.son k count } := by
  rw [moveSon, moveUp_some inside]
  rfl

def connectSons : Nat × Nat × HuffmanTree → Option ((Nat × Nat × HuffmanTree) ⊕ HuffmanTree)
  | (i, j, tree) =>
      if j < tableSize then do
        let first := (← tree.getFreq i) + (← tree.getFreq (i + 1))
        let tree ← tree.setFreq j first
        let k ← iterate (tree.findPlace first) tableSize (j - 1)
        let k := k + 1
        let tree ← tree.moveFreq k (j - k)
        let tree ← tree.setFreq k first
        let tree ← tree.moveSon k (j - k)
        let tree ← tree.setSon k i
        some (.inl (i + 2, j + 1, tree))
      else some (.inr tree)

def connectPrnt (i : Nat) (tree : HuffmanTree) : Option HuffmanTree := do
  tree.adopt (← tree.getSon i) i

def reconst (tree : HuffmanTree) : Option HuffmanTree := do
  let (_, tree) ← forRange tableSize collectLeaf (0, tree)
  let tree ← iterate connectSons tableSize (0, nChar, tree)
  forRange tableSize connectPrnt tree

/-- `while (k > freq[++l])` -/
def findLast (tree : HuffmanTree) (k : Nat) : Nat → Option (Nat ⊕ Nat)
  | l => do
      if (← tree.getFreq (l + 1)) < k then some (.inl (l + 1)) else some (.inr (l + 1))

/-- The nodes at `c` and `l` change places. -/
def exchange (tree : HuffmanTree) (c l k : Nat) : Option HuffmanTree := do
  let tree ← tree.setFreq c (← tree.getFreq l)
  let tree ← tree.setFreq l k
  let i ← tree.getSon c
  let tree ← tree.adopt i l
  let j ← tree.getSon l
  let tree ← tree.setSon l i
  let tree ← tree.adopt j c
  tree.setSon c j

/-- One node of the way from a leaf to the root. -/
def raise : Nat × HuffmanTree → Option ((Nat × HuffmanTree) ⊕ HuffmanTree)
  | (c, tree) => do
      let k := (← tree.getFreq c) + 1
      let tree ← tree.setFreq c k
      let (c, tree) ←
        if (← tree.getFreq (c + 1)) < k then do
          let l ← iterate (tree.findLast k) tableSize (c + 1)
          let l := l - 1
          let tree ← tree.exchange c l k
          some (l, tree)
        else some (c, tree)
      let c ← tree.getPrnt c
      if c ≠ 0 then some (.inl (c, tree)) else some (.inr tree)

def update (tree : HuffmanTree) (c : Nat) : Option HuffmanTree := do
  let tree ← if (← tree.getFreq rootPosition) = maxFreq then tree.reconst else some tree
  iterate raise tableSize ((← tree.getPrnt (c + tableSize)), tree)

end HuffmanTree

end PaclinkUnix
