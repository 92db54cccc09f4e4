import PaclinkUnix.LzhufDecode

/-!
The match finder of `lzhuf_1.c`: a ring of text, its first cells repeated behind its end,
and for each first character a search tree of the strings that start in the ring. `lson`,
`rson` and `dad` link the trees; their roots are the cells of `rson` behind `nil`.
-/

namespace PaclinkUnix

open Memory

abbrev nil : Nat := ringSize
abbrev rsonsze : Nat := ringSize + 256 + 1

structure SearchTree where
  textBuf : Nat → UInt8
  lson : Nat → Nat
  rson : Nat → Nat
  dad : Nat → Nat
  matchPosition : Nat
  matchLength : Nat

namespace SearchTree

def getText (tree : SearchTree) (i : Nat) : Option UInt8 := load textBufSize tree.textBuf i
def getLson (tree : SearchTree) (i : Nat) : Option Nat := load (ringSize + 1) tree.lson i
def getRson (tree : SearchTree) (i : Nat) : Option Nat := load (rsonsze + 1) tree.rson i
def getDad (tree : SearchTree) (i : Nat) : Option Nat := load (ringSize + 1) tree.dad i

def setText (tree : SearchTree) (i : Nat) (c : UInt8) : Option SearchTree := do
  let textBuf ← store textBufSize tree.textBuf i c
  some { tree with textBuf := textBuf }

def setLson (tree : SearchTree) (i value : Nat) : Option SearchTree := do
  let lson ← store (ringSize + 1) tree.lson i value
  some { tree with lson := lson }

def setRson (tree : SearchTree) (i value : Nat) : Option SearchTree := do
  let rson ← store (rsonsze + 1) tree.rson i value
  some { tree with rson := rson }

def setDad (tree : SearchTree) (i value : Nat) : Option SearchTree := do
  let dad ← store (ringSize + 1) tree.dad i value
  some { tree with dad := dad }

section Access

variable {tree : SearchTree} {i value : Nat} {c : UInt8}

theorem getText_some (inside : i < textBufSize) : tree.getText i = some (tree.textBuf i) :=
  load_some inside

theorem getLson_some (inside : i < ringSize + 1) : tree.getLson i = some (tree.lson i) :=
  load_some inside

theorem getRson_some (inside : i < rsonsze + 1) : tree.getRson i = some (tree.rson i) :=
  load_some inside

theorem getDad_some (inside : i < ringSize + 1) : tree.getDad i = some (tree.dad i) :=
  load_some inside

theorem setText_some (inside : i < textBufSize) :
    tree.setText i c = some { tree with textBuf := put tree.textBuf i c } := by
  rw [setText, store_some inside]
  rfl

theorem setLson_some (inside : i < ringSize + 1) :
    tree.setLson i value = some { tree with lson := put tree.lson i value } := by
  rw [setLson, store_some inside]
  rfl

theorem setRson_some (inside : i < rsonsze + 1) :
    tree.setRson i value = some { tree with rson := put tree.rson i value } := by
  rw [setRson, store_some inside]
  rfl

theorem setDad_some (inside : i < ringSize + 1) :
    tree.setDad i value = some { tree with dad := put tree.dad i value } := by
  rw [setDad, store_some inside]
  rfl

end Access

def clearRoot (i : Nat) (tree : SearchTree) : Option SearchTree :=
  tree.setRson (ringSize + 1 + i) nil

def clearNode (i : Nat) (tree : SearchTree) : Option SearchTree := tree.setDad i nil

def initTree (tree : SearchTree) : Option SearchTree := do
  let tree ← forRange (rsonsze - ringSize) clearRoot tree
  forRange ringSize clearNode tree

/-- `if (rson[dad[p]] == p) rson[dad[p]] = q; else lson[dad[p]] = q;` -/
def relink (tree : SearchTree) (p q : Nat) : Option SearchTree := do
  if (← tree.getRson (← tree.getDad p)) = p then tree.setRson (← tree.getDad p) q
  else tree.setLson (← tree.getDad p) q

/-- `((r - p) & (N - 1)) - 1`, an `unsigned int`. -/
def distance (r p : Nat) : Nat := ((((r : Int) - p) % ringSize - 1) % 2 ^ 32).toNat

/-- `for (i = 1; i < F; i++)`, over the strings at `r` and `p`. -/
def compare (tree : SearchTree) (r p : Nat) : Nat × Int → Option ((Nat × Int) ⊕ (Nat × Int))
  | (i, cmp) =>
      if i < lookahead then do
        let cmp := ((← tree.getText (r + i)).toNat : Int) - (← tree.getText (p + i)).toNat
        if cmp ≠ 0 then some (.inr (i, cmp)) else some (.inl (i + 1, cmp))
      else some (.inr (i, cmp))

/-- A longer match, or the nearer one of two. -/
def noteMatch (tree : SearchTree) (r p i : Nat) : SearchTree :=
  let tree :=
    if tree.matchLength < i then { tree with matchPosition := distance r p, matchLength := i }
    else tree
  if i = tree.matchLength then
    if distance r p < tree.matchPosition then { tree with matchPosition := distance r p } else tree
  else tree

/-- `r` takes the place of `p`. -/
def replaceNode (tree : SearchTree) (r p : Nat) : Option SearchTree := do
  let tree ← tree.setDad r (← tree.getDad p)
  let tree ← tree.setLson r (← tree.getLson p)
  let tree ← tree.setRson r (← tree.getRson p)
  let tree ← tree.setDad (← tree.getLson p) r
  let tree ← tree.setDad (← tree.getRson p) r
  let tree ← tree.relink p r
  tree.setDad p nil

/-- One node of the way down. -/
def visit (r p : Nat) (cmp : Int) (tree : SearchTree) :
    Option ((Nat × Int × SearchTree) ⊕ SearchTree) := do
  let (i, cmp) ← iterate (tree.compare r p) lookahead (1, cmp)
  if threshold < i then
    if tree.matchLength < i ∧ lookahead ≤ i then do
      let tree ← (tree.noteMatch r p i).replaceNode r p
      some (.inr tree)
    else some (.inl (p, cmp, tree.noteMatch r p i))
  else some (.inl (p, cmp, tree))

def insertStep (r : Nat) : Nat × Int × SearchTree →
    Option ((Nat × Int × SearchTree) ⊕ SearchTree)
  | (p, cmp, tree) =>
      if 0 ≤ cmp then do
        if (← tree.getRson p) ≠ nil then visit r (← tree.getRson p) cmp tree
        else do
          let tree ← tree.setRson p r
          let tree ← tree.setDad r p
          some (.inr tree)
      else do
        if (← tree.getLson p) ≠ nil then visit r (← tree.getLson p) cmp tree
        else do
          let tree ← tree.setLson p r
          let tree ← tree.setDad r p
          some (.inr tree)

def insertNode (tree : SearchTree) (r : Nat) : Option SearchTree := do
  let p := ringSize + 1 + (← tree.getText r).toNat
  let tree ← tree.setLson r nil
  let tree ← tree.setRson r nil
  iterate (insertStep r) (ringSize + 1) (p, 1, { tree with matchLength := 0 })

/-- `do { q = rson[q]; } while (rson[q] != NIL);` -/
def rightmost (tree : SearchTree) (q : Nat) : Option (Nat ⊕ Nat) := do
  let q ← tree.getRson q
  if (← tree.getRson q) ≠ nil then some (.inl q) else some (.inr q)

/-- The last node of the left subtree of `p` leaves its place, to take the one of `p`. -/
def joinSons (tree : SearchTree) (p : Nat) : Option (Nat × SearchTree) := do
  let q ← tree.getLson p
  let (q, tree) ←
    if (← tree.getRson q) ≠ nil then do
      let q ← iterate tree.rightmost ringSize q
      let tree ← tree.setRson (← tree.getDad q) (← tree.getLson q)
      let tree ← tree.setDad (← tree.getLson q) (← tree.getDad q)
      let tree ← tree.setLson q (← tree.getLson p)
      let tree ← tree.setDad (← tree.getLson p) q
      some (q, tree)
    else some (q, tree)
  let tree ← tree.setRson q (← tree.getRson p)
  let tree ← tree.setDad (← tree.getRson p) q
  some (q, tree)

def deleteNode (tree : SearchTree) (p : Nat) : Option SearchTree := do
  if (← tree.getDad p) = nil then some tree
  else do
    let (q, tree) ←
      if (← tree.getRson p) = nil then do some ((← tree.getLson p), tree)
      else if (← tree.getLson p) = nil then do some ((← tree.getRson p), tree)
      else tree.joinSons p
    let tree ← tree.setDad q (← tree.getDad p)
    let tree ← tree.relink p q
    tree.setDad p nil

end SearchTree

end PaclinkUnix
