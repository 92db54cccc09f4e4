import PaclinkUnix.Library.TwoRuns
import PaclinkUnix.SearchForest

/-!
The search trees of two runs that may differ in what an earlier message has left: in the
sons of strings that are not registered, and in the text behind what this one has written.
-/

namespace PaclinkUnix

open Memory LinkedForest

namespace SearchTree

def IsRoot (x : Nat) : Prop := nil < x ∧ x < rootEnd

/-- They agree on the sons of live nodes, on the fathers, on the text below `known`, and on
the match once it is marked. -/
structure Twin (live : Nat → Prop) (known : Nat) (marked : Prop) (tree other : SearchTree) :
    Prop where
  text : ∀ i < known, tree.textBuf i = other.textBuf i
  dad : ∀ x < nil, tree.dad x = other.dad x
  rson : ∀ x, live x ∨ IsRoot x → tree.rson x = other.rson x
  lson : ∀ x, live x → tree.lson x = other.lson x
  noted : marked → tree.matchLength = other.matchLength ∧
    (threshold < tree.matchLength → tree.matchPosition = other.matchPosition)

/-- The same, while `hung` are known to hang from live nodes or roots. -/
structure TwinUp (hung live : Nat → Prop) (known : Nat) (marked : Prop)
    (tree other : SearchTree) : Prop where
  twin : Twin live known marked tree other
  up : ∀ x, hung x → live (tree.dad x) ∨ IsRoot (tree.dad x)

section Cells

variable {hung live : Nat → Prop} {known i x value : Nat} {marked : Prop} {c : UInt8}
  {tree other : SearchTree}

namespace Twin

theorem getText (twin : Twin live known marked tree other) (inside : i < known) :
    tree.getText i = other.getText i :=
  load_congr (twin.text i inside)

theorem getDad (twin : Twin live known marked tree other) (inside : x < nil) :
    tree.getDad x = other.getDad x :=
  load_congr (twin.dad x inside)

theorem getRson (twin : Twin live known marked tree other) (lives : live x ∨ IsRoot x) :
    tree.getRson x = other.getRson x :=
  load_congr (twin.rson x lives)

theorem getLson (twin : Twin live known marked tree other) (lives : live x) :
    tree.getLson x = other.getLson x :=
  load_congr (twin.lson x lives)

theorem setText (twin : Twin live known marked tree other) (i : Nat) (c : UInt8) :
    Option.Rel (Twin live known marked) (tree.setText i c) (other.setText i c) := by
  unfold SearchTree.setText store
  split
  · exact .some ⟨fun y inside => put_congr (twin.text y inside), twin.dad, twin.rson,
      twin.lson, twin.noted⟩
  · exact .none

theorem setRson (twin : Twin live known marked tree other) (x value : Nat) :
    Option.Rel (Twin live known marked) (tree.setRson x value) (other.setRson x value) := by
  unfold SearchTree.setRson store
  split
  · exact .some ⟨twin.text, twin.dad, fun y lives => put_congr (twin.rson y lives),
      twin.lson, twin.noted⟩
  · exact .none

theorem setLson (twin : Twin live known marked tree other) (x value : Nat) :
    Option.Rel (Twin live known marked) (tree.setLson x value) (other.setLson x value) := by
  unfold SearchTree.setLson store
  split
  · exact .some ⟨twin.text, twin.dad, twin.rson, fun y lives => put_congr (twin.lson y lives),
      twin.noted⟩
  · exact .none

theorem setDad (twin : Twin live known marked tree other) (x value : Nat) :
    Option.Rel (Twin live known marked) (tree.setDad x value) (other.setDad x value) := by
  unfold SearchTree.setDad store
  split
  · exact .some ⟨twin.text, fun y inside => put_congr (twin.dad y inside), twin.rson,
      twin.lson, twin.noted⟩
  · exact .none

end Twin

namespace TwinUp

theorem of_twin {first second : Option SearchTree}
    (sets : Option.Rel (Twin live known marked) first second)
    (up : ∀ next, first = some next → ∀ x, hung x → live (next.dad x) ∨ IsRoot (next.dad x)) :
    Option.Rel (TwinUp hung live known marked) first second :=
  rel_mono (rel_keep sets up) fun _ _ both => ⟨both.1, both.2⟩

theorem setRson (twins : TwinUp hung live known marked tree other) (x value : Nat) :
    Option.Rel (TwinUp hung live known marked) (tree.setRson x value) (other.setRson x value) := by
  refine of_twin (twins.twin.setRson x value) fun next sets => ?_
  obtain ⟨rson, -, made⟩ := Option.bind_eq_some_iff.mp sets
  obtain rfl := Option.some.inj made
  exact twins.up

theorem setLson (twins : TwinUp hung live known marked tree other) (x value : Nat) :
    Option.Rel (TwinUp hung live known marked) (tree.setLson x value) (other.setLson x value) := by
  refine of_twin (twins.twin.setLson x value) fun next sets => ?_
  obtain ⟨lson, -, made⟩ := Option.bind_eq_some_iff.mp sets
  obtain rfl := Option.some.inj made
  exact twins.up

theorem setDad (twins : TwinUp hung live known marked tree other) (x : Nat)
    (place : live value ∨ IsRoot value) :
    Option.Rel (TwinUp hung live known marked) (tree.setDad x value) (other.setDad x value) := by
  refine of_twin (twins.twin.setDad x value) fun next sets y hangs => ?_
  obtain ⟨dad, stores, made⟩ := Option.bind_eq_some_iff.mp sets
  obtain rfl := Option.some.inj made
  obtain rfl := store_value stores
  change live (put tree.dad x value y) ∨ IsRoot (put tree.dad x value y)
  rw [put_apply]
  split
  · exact place
  · exact twins.up y hangs

end TwinUp

end Cells

section Operations

variable {hung live : Nat → Prop} {known p q r : Nat} {marked : Prop} {tree other : SearchTree}

theorem TwinUp.relink (twins : TwinUp hung live known marked tree other) (hangs : hung p)
    (inside : p < nil) (q : Nat) :
    Option.Rel (Twin live known marked) (tree.relink p q) (other.relink p q) := by
  have up := twins.up p hangs
  have dad := twins.twin.getDad inside
  simp only [SearchTree.relink, Option.bind_eq_bind]
  refine rel_value dad fun d reads => ?_
  obtain rfl := load_value reads
  refine rel_read (twins.twin.getRson up) fun son => ?_
  split
  · exact rel_read dad fun d => twins.twin.setRson d q
  · exact rel_read dad fun d => twins.twin.setLson d q

/-- Where live nodes and roots lead. -/
structure Closed (live : Nat → Prop) (tree : SearchTree) : Prop where
  node : ∀ x, live x → x < nil
  up : ∀ x, live x → live (tree.dad x) ∨ IsRoot (tree.dad x)
  right : ∀ x, live x ∨ IsRoot x → tree.rson x ≠ nil → live (tree.rson x)
  left : ∀ x, live x → tree.lson x ≠ nil → live (tree.lson x)

theorem Closed.rightmost (closed : Closed live tree) (twin : Twin live known marked tree other)
    (lives : live q) (more : tree.rson q ≠ nil) :
    Option.Rel (fun q q' => q = q' ∧ live q) (iterate tree.rightmost ringSize q)
      (iterate other.rightmost ringSize q) := by
  refine iterate_rel (fun q q' => q = q' ∧ live q ∧ tree.rson q ≠ nil) ?_ _ ⟨rfl, lives, more⟩
  rintro q _ ⟨rfl, lives, more⟩
  simp only [SearchTree.rightmost, Option.bind_eq_bind]
  refine rel_value (twin.getRson (.inl lives)) fun next reads => ?_
  obtain rfl := load_value reads
  have lives := closed.right q (.inl lives) more
  refine rel_value (twin.getRson (.inl lives)) fun son reads => ?_
  obtain rfl := load_value reads
  split
  · exact .some (.inl ⟨rfl, lives, ‹_›⟩)
  · exact .some (.inr ⟨rfl, lives⟩)

theorem Closed.joinSons (closed : Closed live tree) (twin : Twin live known marked tree other)
    (lives : live p) (left : tree.lson p ≠ nil) :
    Option.Rel (fun joined joined' => joined.1 = joined'.1 ∧
        TwinUp live live known marked joined.2 joined'.2)
      (tree.joinSons p) (other.joinSons p) := by
  have ends : ∀ {tree other : SearchTree} (q : Nat), live q →
      TwinUp live live known marked tree other →
      Option.Rel (fun joined joined' => joined.1 = joined'.1 ∧
          TwinUp live live known marked joined.2 joined'.2)
        ((tree.getRson p).bind fun right => (tree.setRson q right).bind fun tree =>
          (tree.getRson p).bind fun right => (tree.setDad right q).bind fun tree => some (q, tree))
        ((other.getRson p).bind fun right => (other.setRson q right).bind fun tree =>
          (tree.getRson p).bind fun right => (tree.setDad right q).bind fun tree =>
            some (q, tree)) := by
    intro tree other q last twins
    refine rel_read (twins.twin.getRson (.inl lives)) fun right => ?_
    refine rel_bind _ (twins.setRson q right) fun _ _ twins => ?_
    refine rel_read (twins.twin.getRson (.inl lives)) fun right => ?_
    exact rel_bind _ (twins.setDad right (.inl last)) fun _ _ twins => .some ⟨rfl, twins⟩
  refine rel_value (twin.getLson lives) fun first reads => ?_
  obtain rfl := load_value reads
  have lives' := closed.left p lives left
  refine rel_value (twin.getRson (.inl lives')) fun son reads => ?_
  obtain rfl := load_value reads
  split
  next more =>
    refine rel_bind _ (closed.rightmost twin lives' more) ?_
    rintro q _ ⟨rfl, last⟩
    have inside := closed.node q last
    refine rel_read (twin.getDad inside) fun d => rel_read (twin.getLson last) fun son => ?_
    refine rel_bind _ ((TwinUp.mk twin closed.up).setRson d son) fun _ _ twins => ?_
    refine rel_read (twins.twin.getLson last) fun son => ?_
    refine rel_value (twins.twin.getDad inside) fun d reads => ?_
    obtain rfl := load_value reads
    refine rel_bind _ (twins.setDad son (twins.up q last)) fun _ _ twins => ?_
    refine rel_read (twins.twin.getLson lives) fun left => ?_
    refine rel_bind _ (twins.setLson q left) fun _ _ twins => ?_
    refine rel_read (twins.twin.getLson lives) fun left => ?_
    exact rel_bind _ (twins.setDad left (.inl last)) fun _ _ twins => ends q last twins
  next => exact ends _ lives' ⟨twin, closed.up⟩

theorem Closed.deleteNode (closed : Closed live tree) (twin : Twin live known marked tree other)
    (inside : p < nil) (lives : tree.dad p ≠ nil → live p) :
    Option.Rel (Twin live known marked) (tree.deleteNode p) (other.deleteNode p) := by
  simp only [SearchTree.deleteNode, Option.bind_eq_bind]
  refine rel_value (twin.getDad inside) fun d reads => ?_
  obtain rfl := load_value reads
  split
  · exact .some twin
  next hung =>
    have lives := lives hung
    have ends : ∀ {tree other : SearchTree} (q : Nat), TwinUp live live known marked tree other →
        Option.Rel (Twin live known marked)
          ((tree.getDad p).bind fun d => (tree.setDad q d).bind fun tree =>
            (tree.relink p q).bind fun tree => tree.setDad p nil)
          ((other.getDad p).bind fun d => (other.setDad q d).bind fun tree =>
            (tree.relink p q).bind fun tree => tree.setDad p nil) := by
      intro tree other q twins
      refine rel_value (twins.twin.getDad inside) fun d reads => ?_
      obtain rfl := load_value reads
      refine rel_bind _ (twins.setDad q (twins.up p lives)) fun _ _ twins => ?_
      exact rel_bind _ (twins.relink lives inside q) fun _ _ twin => twin.setDad p nil
    have twins : TwinUp live live known marked tree other := ⟨twin, closed.up⟩
    refine rel_read (twin.getRson (.inl lives)) fun right => ?_
    refine rel_value (twin.getLson lives) fun left reads => ?_
    obtain rfl := load_value reads
    split
    · simp only [Option.bind_some]
      exact rel_read (twin.getLson lives) fun left => ends left twins
    · split
      · simp only [Option.bind_some]
        exact rel_read (twin.getRson (.inl lives)) fun right => ends right twins
      next left =>
        refine rel_bind _ (closed.joinSons twin lives left) ?_
        rintro ⟨q, tree⟩ ⟨_, other⟩ ⟨rfl, twins⟩
        exact ends q twins

theorem TwinUp.replaceNode (twins : TwinUp (· = p) live known marked tree other) (lives : live p)
    (inside : p < nil) (new : live r) :
    Option.Rel (Twin live known marked) (tree.replaceNode r p) (other.replaceNode r p) := by
  refine rel_value (twins.twin.getDad inside) fun d reads => ?_
  obtain rfl := load_value reads
  refine rel_bind _ (twins.setDad r (twins.up p rfl)) fun _ _ twins => ?_
  refine rel_read (twins.twin.getLson lives) fun left => ?_
  refine rel_bind _ (twins.setLson r left) fun _ _ twins => ?_
  refine rel_read (twins.twin.getRson (.inl lives)) fun right => ?_
  refine rel_bind _ (twins.setRson r right) fun _ _ twins => ?_
  refine rel_read (twins.twin.getLson lives) fun left => ?_
  refine rel_bind _ (twins.setDad left (.inl new)) fun _ _ twins => ?_
  refine rel_read (twins.twin.getRson (.inl lives)) fun right => ?_
  refine rel_bind _ (twins.setDad right (.inl new)) fun _ _ twins => ?_
  exact rel_bind _ (twins.relink rfl inside r) fun _ _ twin => twin.setDad p nil

theorem Twin.compare (twin : Twin live known marked tree other) (first : r + lookahead ≤ known)
    (second : p + lookahead ≤ known) : tree.compare r p = other.compare r p := by
  funext ⟨i, cmp⟩
  by_cases short : i < lookahead
  · simp only [SearchTree.compare, if_pos short, twin.getText (show r + i < known by omega),
      twin.getText (show p + i < known by omega)]
  · simp only [SearchTree.compare, if_neg short]

theorem Twin.noteMatch (twin : Twin live known True tree other) {i : Nat} (long : threshold < i) :
    Twin live known True (tree.noteMatch r p i) (other.noteMatch r p i) := by
  obtain ⟨text, dad, rson, lson, noted⟩ := twin
  obtain ⟨length, position⟩ := noted trivial
  obtain ⟨links, sameText, longest⟩ := noteMatch_same tree r p i
  obtain ⟨links', sameText', longest'⟩ := noteMatch_same other r p i
  have sons := congrArg Links.son links
  have sons' := congrArg Links.son links'
  have dads : (tree.noteMatch r p i).dad = tree.dad := congrArg Links.dad links
  have dads' : (other.noteMatch r p i).dad = other.dad := congrArg Links.dad links'
  have rsons : (tree.noteMatch r p i).rson = tree.rson := congrFun sons true
  have rsons' : (other.noteMatch r p i).rson = other.rson := congrFun sons' true
  have lsons : (tree.noteMatch r p i).lson = tree.lson := congrFun sons false
  have lsons' : (other.noteMatch r p i).lson = other.lson := congrFun sons' false
  refine ⟨?_, ?_, ?_, ?_, fun _ => ⟨by rw [longest, longest', length], fun _ => ?_⟩⟩
  · rw [sameText, sameText']
    exact text
  · rw [dads, dads']
    exact dad
  · rw [rsons, rsons']
    exact rson
  · rw [lsons, lsons']
    exact lson
  · by_cases longer : tree.matchLength < i
    · simp only [SearchTree.noteMatch, if_pos longer, if_pos (length ▸ longer), if_true,
        Nat.lt_irrefl, if_false]
    · have same := position (by omega)
      have longer' : ¬ other.matchLength < i := length ▸ longer
      simp only [SearchTree.noteMatch, if_neg longer', length]
      by_cases equal : i = other.matchLength
      · rw [if_pos equal, if_pos equal, same]
        by_cases nearer : distance r p < other.matchPosition
        · rw [if_pos nearer, if_pos nearer]
        · rw [if_neg nearer, if_neg nearer]
          exact same
      · rw [if_neg equal, if_neg equal]
        exact same

/-- In the middle of a search; nothing but the match has changed since `before`. -/
structure Descent (before : SearchTree) (live : Nat → Prop) (r known : Nat)
    (state other : Nat × Int × SearchTree) : Prop where
  node : state.1 = other.1
  cmp : state.2.1 = other.2.1
  twin : Twin (fun x => live x ∨ x = r) known True state.2.2 other.2.2
  links : state.2.2.links = before.links
  place : live state.1 ∨ (IsRoot state.1 ∧ 0 ≤ state.2.1)

variable {before : SearchTree}

theorem Closed.visit (closed : Closed live before) {cmp : Int}
    (twin : Twin (fun x => live x ∨ x = r) known True tree other)
    (links : tree.links = before.links) (lives : live p)
    (fits : ∀ x, live x ∨ x = r → x + lookahead ≤ known) :
    Option.Rel (Sum.LiftRel (Descent before live r known)
        (Twin (fun x => live x ∨ x = r) known True))
      (visit r p cmp tree) (visit r p cmp other) := by
  have inside := closed.node p lives
  have dads : tree.dad = before.dad := congrArg Links.dad links
  simp only [SearchTree.visit, Option.bind_eq_bind,
    twin.compare (fits r (.inr rfl)) (fits p (.inl lives))]
  refine rel_read rfl fun found => ?_
  obtain ⟨i, last⟩ := found
  simp only
  split
  next long =>
    have noting := @Twin.noteMatch _ _ p r _ _ twin i long
    have same := (twin.noted trivial).1
    rw [same]
    split
    · have up : live (before.dad p) ∨ IsRoot (before.dad p) := closed.up p lives
      have sameDad : (tree.noteMatch r p i).dad = tree.dad :=
        congrArg Links.dad (noteMatch_same tree r p i).1
      have twins : TwinUp (· = p) (fun x => live x ∨ x = r) known True (tree.noteMatch r p i)
          (other.noteMatch r p i) := by
        refine ⟨noting, ?_⟩
        rintro x rfl
        rw [sameDad, dads]
        exact up.imp_left .inl
      exact rel_bind _ (twins.replaceNode (.inl lives) inside (.inr rfl)) fun _ _ twin =>
        .some (.inr twin)
    · exact .some (.inl ⟨rfl, rfl, noting, (noteMatch_same tree r p i).1.trans links, .inl lives⟩)
  next => exact .some (.inl ⟨rfl, rfl, twin, links, .inl lives⟩)

theorem Closed.insertStep (closed : Closed live before)
    (fits : ∀ x, live x ∨ x = r → x + lookahead ≤ known) {state state' : Nat × Int × SearchTree}
    (descent : Descent before live r known state state') :
    Option.Rel (Sum.LiftRel (Descent before live r known)
        (Twin (fun x => live x ∨ x = r) known True))
      (insertStep r state) (insertStep r state') := by
  obtain ⟨p, cmp, tree⟩ := state
  obtain ⟨_, _, other⟩ := state'
  obtain ⟨rfl, rfl, twin, links, place⟩ := descent
  simp only at twin links place ⊢
  have rson : tree.rson = before.rson := congrFun (congrArg Links.son links) true
  have lson : tree.lson = before.lson := congrFun (congrArg Links.son links) false
  simp only [SearchTree.insertStep, Option.bind_eq_bind]
  split
  next ahead =>
    have lives : live p ∨ IsRoot p := place.imp_right And.left
    have reads := twin.getRson (lives.imp_left Or.inl)
    refine rel_value reads fun son value => ?_
    obtain rfl := load_value value
    split
    next more =>
      refine rel_value reads fun son value => ?_
      obtain rfl := load_value value
      rw [rson] at more ⊢
      exact closed.visit twin links (closed.right p lives more) fits
    next =>
      refine rel_bind _ (twin.setRson p r) fun _ _ twin => ?_
      exact rel_bind _ (twin.setDad r p) fun _ _ twin => .some (.inr twin)
  next back =>
    have lives : live p := place.resolve_right fun both => back both.2
    have reads := twin.getLson (.inl lives)
    refine rel_value reads fun son value => ?_
    obtain rfl := load_value value
    split
    next more =>
      refine rel_value reads fun son value => ?_
      obtain rfl := load_value value
      rw [lson] at more ⊢
      exact closed.visit twin links (closed.left p lives more) fits
    next =>
      refine rel_bind _ (twin.setLson p r) fun _ _ twin => ?_
      exact rel_bind _ (twin.setDad r p) fun _ _ twin => .some (.inr twin)

theorem Closed.insertNode (closed : Closed live tree) (twin : Twin live known marked tree other)
    (node : r < nil) (fits : ∀ x, live x ∨ x = r → x + lookahead ≤ known) :
    Option.Rel (Twin (fun x => live x ∨ x = r) known True) (tree.insertNode r)
      (other.insertNode r) := by
  have within : r < known := by
    have := fits r (.inr rfl)
    lia
  refine rel_value (twin.getText within) fun c reads => ?_
  obtain rfl := load_value reads
  simp only [setLson_some (show r < ringSize + 1 by lia),
    setRson_some (show r < rsonsze + 1 by lia), Option.bind_eq_bind, Option.bind_some]
  have below := label_lt tree r
  have root : IsRoot (ringSize + 1 + (tree.textBuf r).toNat) := ⟨by lia, below⟩
  have bared : Closed live { tree with
      lson := put tree.lson r nil, rson := put tree.rson r nil, matchLength := 0 } := by
    refine ⟨closed.node, closed.up, fun x lives more => ?_, fun x lives more => ?_⟩
    · change put tree.rson r nil x ≠ nil at more
      change live (put tree.rson r nil x)
      by_cases new : x = r
      · exact absurd (new ▸ put_same) more
      · rw [put_other new] at more ⊢
        exact closed.right x lives more
    · change put tree.lson r nil x ≠ nil at more
      change live (put tree.lson r nil x)
      by_cases new : x = r
      · exact absurd (new ▸ put_same) more
      · rw [put_other new] at more ⊢
        exact closed.left x lives more
  refine iterate_rel (Descent { tree with
    lson := put tree.lson r nil, rson := put tree.rson r nil, matchLength := 0 } live r known)
    (fun state state' descent => bared.insertStep fits descent) _
    ⟨rfl, rfl, ⟨twin.text, twin.dad, fun x lives => ?_, fun x lives => ?_, fun _ => ⟨rfl, ?_⟩⟩,
      rfl, .inr ⟨root, Int.one_nonneg⟩⟩
  · change put tree.rson r nil x = put other.rson r nil x
    by_cases new : x = r
    · rw [new, put_same, put_same]
    · rw [put_other new, put_other new]
      exact twin.rson x (lives.imp_left fun either => either.resolve_right new)
  · change put tree.lson r nil x = put other.lson r nil x
    by_cases new : x = r
    · rw [new, put_same, put_same]
    · rw [put_other new, put_other new]
      exact twin.lson x (lives.resolve_right new)
  · exact fun long => absurd long (Nat.not_lt_zero threshold)

theorem Planted.closed (planted : Planted tree) :
    Closed (fun x => x < nil ∧ tree.dad x ≠ nil) tree := by
  obtain ⟨side, rank, grown⟩ := planted
  have down : ∀ b x, Place nil rootEnd tree.links b x → tree.links.son b x ≠ nil →
      tree.links.son b x < nil ∧ tree.dad (tree.links.son b x) ≠ nil := by
    intro b x place filled
    have inside := Nat.lt_of_le_of_ne (grown.range b x place) filled
    obtain ⟨up, -⟩ := (grown.hangs b x place _ inside).mp rfl
    exact ⟨inside, fun gone => place.ne_nil (up.symm.trans gone)⟩
  refine ⟨fun x lives => lives.1, fun x lives => ?_, fun x lives => ?_, fun x lives => ?_⟩
  · rcases grown.place x lives.1 lives.2 with ⟨above, below, -⟩ | place
    · exact .inr ⟨above, below⟩
    · exact .inl place
  · refine down true x ?_
    rcases lives with hung | ⟨above, below⟩
    · exact .inr hung
    · exact .inl ⟨above, below, rfl⟩
  · exact down false x (.inr lives)

end Operations

end SearchTree

end PaclinkUnix
