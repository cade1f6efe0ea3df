import Mbroker.Utils.BoxSort

/-!
# What `find_box` and `remove_box` do to a list of boxes

`remove_box` treats the first box apart and then looks at the second one for ever, since
its loop never advances; behind the only box of a list, or in an empty list, it follows a
null pointer.  `find_box` returns the first box with another name.

    removesExactly_iff : `remove_box` is right iff the first or the second box has the name
    findsExactly_iff   : `find_box` is right only on the empty list
-/

namespace Mbroker

open CLib Outcome Bounded

section
variable {nodes : Heap BoxNode} {first : Option Nat} {boxes : List (Nat × BoxNode)}
  {m : Region UInt8} {a : Nat} {name : CStr}

/-! ## `remove_box` -/

def isNamed (name : CStr) (e : Nat × BoxNode) : Bool := decide (e.2.boxName.str = name)

/-- The call returns, with true just when a box has the name; the list that is left is the old
one without that box. -/
def RemovesExactly (nodes : Heap BoxNode) (first : Option Nat) (boxes : List (Nat × BoxNode))
    (m : Region UInt8) (a : Nat) (name : CStr) : Prop :=
  ∃ fuel nodes' first' boxes',
    removeBox fuel nodes (some first) m a =
      .done (ok (boxes.any (isNamed name), nodes', some first')) ∧
    BoxList nodes' first' boxes' ∧
    unlinkedBoxes boxes' = unlinkedBoxes (boxes.filter fun e => !isNamed name e) ∧
    (boxes.any (isNamed name) = false → nodes' = nodes ∧ first' = first)

/-- With distinct names no other box has the name of the first one. -/
theorem filter_rest {e : Nat × BoxNode} {rest : List (Nat × BoxNode)}
    (hd : (boxNames (e :: rest)).Nodup) (he : isNamed name e = true) :
    (rest.filter fun e => !isNamed name e) = rest := by
  rw [List.filter_eq_self]
  intro d hmem
  rw [Bool.not_eq_true', ← Bool.not_eq_true]
  intro hname
  have hsame : d.2.boxName = e.2.boxName :=
    BoxName.ext' ((of_decide_eq_true hname).trans (of_decide_eq_true he).symm)
  exact (List.nodup_cons.mp hd).1 (List.mem_map.mpr ⟨d, hmem, hsame⟩)

theorem strcmpEq_named (hm : HasString m a name) (p : Nat) (node : BoxNode) :
    strcmpEq m a node.boxName.str = ok (isNamed name (p, node)) := by
  rw [hm.strcmpEq]
  congr 1
  exact decide_eq_decide.mpr eq_comm

/-- The first box goes. -/
theorem removeBox_first {p : Nat} {node : BoxNode} (hm : HasString m a name)
    (hl : BoxList nodes first ((p, node) :: boxes)) (hn : isNamed name (p, node) = true)
    (fuel : Nat) :
    removeBox fuel nodes (some first) m a = .done (ok (true, nodes, some node.next)) := by
  obtain ⟨rfl, hp, -⟩ := hl
  simp [removeBox, Heap.load_ok hp, strcmpEq_named hm p, hn]

/-- Otherwise the loop starts at the first box, and stays there. -/
theorem removeBox_loop {p : Nat} {node : BoxNode} (hm : HasString m a name)
    (hl : BoxList nodes first ((p, node) :: boxes)) (hn : isNamed name (p, node) = false)
    (fuel : Nat) : removeBox fuel nodes (some first) m a =
      (loop (removeStep nodes m a) fuel (some p) >>= fun x =>
        (pure (x.1, x.2, some (some p)) : Bounded _)) := by
  obtain ⟨rfl, hp, -⟩ := hl
  simp only [removeBox, Heap.load_ok hp, strcmpEq_named hm p, hn, lift_eq, Bounded.ok_bind,
    Bool.false_eq_true, if_false]

theorem removesExactly_first {p : Nat} {node : BoxNode} (hm : HasString m a name)
    (hl : BoxList nodes first ((p, node) :: boxes)) (hd : (boxNames ((p, node) :: boxes)).Nodup)
    (hn : isNamed name (p, node) = true) :
    RemovesExactly nodes first ((p, node) :: boxes) m a name := by
  have hany : ((p, node) :: boxes).any (isNamed name) = true := by simp [hn]
  refine ⟨0, nodes, node.next, boxes, ?_, hl.2.2, ?_, fun h => ?_⟩
  · rw [hany]
    exact removeBox_first hm hl hn 0
  · rw [List.filter_cons_of_neg (by simp [hn]), filter_rest hd hn]
  · rw [hany] at h
    cases h

theorem removesExactly_second {p q : Nat} {node next : BoxNode} (hm : HasString m a name)
    (hl : BoxList nodes first ((p, node) :: (q, next) :: boxes))
    (hd : (boxNames ((p, node) :: (q, next) :: boxes)).Nodup)
    (hp : isNamed name (p, node) = false) (hq : isNamed name (q, next) = true) :
    RemovesExactly nodes first ((p, node) :: (q, next) :: boxes) m a name := by
  have hany : ((p, node) :: (q, next) :: boxes).any (isNamed name) = true := by simp [hq]
  have hloop := removeBox_loop hm hl hp 1
  have hnodup := chain_nodup hl
  obtain ⟨rfl, hnode, hnext, hbox, hrest⟩ := hl
  have hstep : removeStep nodes m a (some p) =
      ok (.inr (true, Function.update nodes p (some { node with next := next.next }))) := by
    simp [removeStep, Heap.load_ok hnode, hnext, Heap.load_ok hbox, strcmpEq_named hm q, hq,
      Heap.store_ok hnode]
  -- the store changes the first box only
  have hlist : BoxList (Function.update nodes p (some { node with next := next.next })) (some p)
      ((p, { node with next := next.next }) :: boxes) := by
    refine ⟨rfl, Function.update_self _ _ _, chain_congr hrest (fun e he => ?_)⟩
    apply Function.update_of_ne
    intro h
    rw [List.map_cons, List.nodup_cons] at hnodup
    exact hnodup.1 (List.mem_map.mpr ⟨e, List.mem_cons_of_mem _ he, h⟩)
  refine ⟨1, _, some p, _, ?_, hlist, ?_, fun h => ?_⟩
  · rw [hloop, loop_leave hstep, hany]
    rfl
  · rw [List.filter_cons_of_pos (by simp [hp]), List.filter_cons_of_neg (by simp [hq]),
      filter_rest (List.nodup_cons.mp hd).2 hq]
    rfl
  · rw [hany] at h
    cases h

/-- Neither the first nor the second box: the call follows a null pointer or does not end. -/
theorem removeBox_other (hm : HasString m a name) (hl : BoxList nodes first boxes)
    (hn : ∀ e ∈ boxes.take 2, isNamed name e = false) (fuel : Nat)
    {x : Bool × Heap BoxNode × Option (Option Nat)} :
    removeBox fuel nodes (some first) m a ≠ .done (ok x) := by
  intro hdone
  cases boxes with
  | nil =>
    obtain rfl : first = none := hl
    simp [removeBox] at hdone
  | cons d boxes =>
    obtain ⟨p, node⟩ := d
    rw [removeBox_loop hm hl (hn (p, node) (by simp))] at hdone
    obtain ⟨rfl, hnode, hrest⟩ := hl
    obtain ⟨y, hloop, -⟩ := Bounded.bind_eq_ok.mp hdone
    cases boxes with
    | nil =>
      have hnext : node.next = none := hrest
      have hstep : removeStep nodes m a (some p) = fault := by
        simp [removeStep, Heap.load_ok hnode, hnext]
      obtain ⟨r, hs⟩ := loop_round hloop
      rw [hstep] at hs
      cases hs
    | cons e boxes =>
      obtain ⟨q, next⟩ := e
      obtain ⟨hnext, hbox, -⟩ := hrest
      have hstep : removeStep nodes m a (some p) = ok (.inl (some p)) := by
        simp [removeStep, Heap.load_ok hnode, hnext, Heap.load_ok hbox, strcmpEq_named hm q,
          hn (q, next) (by simp)]
      rw [loop_stays hstep] at hloop
      cases hloop

/-- `remove_box` does what it is for just when the first or the second box has the name. -/
theorem removesExactly_iff (hm : HasString m a name) (hl : BoxList nodes first boxes)
    (hd : (boxNames boxes).Nodup) : RemovesExactly nodes first boxes m a name ↔
      ∃ e ∈ boxes.take 2, e.2.boxName.str = name := by
  constructor
  · rintro ⟨fuel, nodes', first', boxes', hdone, -⟩
    by_contra hno
    refine removeBox_other hm hl (fun e he => ?_) fuel hdone
    exact decide_eq_false (fun h => hno ⟨e, he, h⟩)
  · rintro ⟨e, he, hname⟩
    have hn : isNamed name e = true := decide_eq_true hname
    cases boxes with
    | nil => cases he
    | cons d boxes =>
      obtain ⟨p, node⟩ := d
      cases hp : isNamed name (p, node) with
      | true => exact removesExactly_first hm hl hd hp
      | false =>
        cases boxes with
        | nil =>
          obtain rfl : e = (p, node) := by simpa using he
          rw [hp] at hn
          cases hn
        | cons c boxes =>
          obtain ⟨q, next⟩ := c
          have hq : isNamed name (q, next) = true := by
            have hmem : e = (p, node) ∨ e = (q, next) := by simpa using he
            rcases hmem with rfl | rfl
            · rw [hp] at hn
              cases hn
            · exact hn
          exact removesExactly_second hm hl hd hp hq

end

def nodeC : BoxNode := ⟨slashName 99 (by decide), 0, 1024, 0, 0, none⟩ -- "/c"

def threeBoxes : List (Nat × BoxNode) :=
  [(1, { nodeA with next := some 2 }), (2, { nodeB with next := some 3 }), (3, nodeC)]

def threeNodes : Heap BoxNode := fun p => (threeBoxes.find? fun e => e.1 == p).map Prod.snd

/-- The argument `box_name`: a slash, one more character and the NUL. -/
def nameArgument (c : UInt8) : Region UInt8 := ⟨false, 0, 3, fun i => [47, c, 0].getD i 0⟩

theorem removesExactly_slashB : RemovesExactly threeNodes (some 1) threeBoxes (nameArgument 98) 0
    nodeB.boxName.str := by
  refine (removesExactly_iff ?_ ?_ ?_).mpr ⟨(2, { nodeB with next := some 3 }), ?_, rfl⟩
  · exact ⟨Nat.le_refl 0, by decide, by decide⟩
  · exact ⟨rfl, rfl, rfl, rfl, rfl, rfl, rfl⟩
  · decide
  · decide

/-- Of `/a`, `/b` and `/c` the call never removes `/c`: it does not end. -/
theorem not_removesExactly :
    ¬ ∀ (nodes : Heap BoxNode) (first : Option Nat) (boxes : List (Nat × BoxNode))
      (m : Region UInt8) (a : Nat) (name : CStr), HasString m a name →
      BoxList nodes first boxes → (boxNames boxes).Nodup →
      RemovesExactly nodes first boxes m a name := by
  intro hall
  have hm : HasString (nameArgument 99) 0 nodeC.boxName.str :=
    ⟨Nat.le_refl 0, by decide, by decide⟩
  have hl : BoxList threeNodes (some 1) threeBoxes := ⟨rfl, rfl, rfl, rfl, rfl, rfl, rfl⟩
  obtain ⟨fuel, nodes', first', boxes', hdone, -⟩ :=
    hall threeNodes (some 1) threeBoxes (nameArgument 99) 0 nodeC.boxName.str hm hl (by decide)
  exact removeBox_other hm hl (by decide) fuel hdone

/-! ## `find_box` -/

/-- The box `find_box` is to find. -/
def namedBox (name : CStr) (boxes : List (Nat × BoxNode)) : Option Nat :=
  (boxes.find? (isNamed name)).map Prod.fst

def FindsExactly (nodes : Heap BoxNode) (first : Option Nat) (boxes : List (Nat × BoxNode))
    (m : Region UInt8) (a : Nat) (name : CStr) : Prop :=
  ∃ fuel, findBox fuel nodes (some first) m a = .done (ok (namedBox name boxes))

section
variable {nodes : Heap BoxNode} {first : Option Nat} {boxes : List (Nat × BoxNode)}
  {m : Region UInt8} {a : Nat} {name : CStr}

theorem namedBox_some {p : Nat} (h : namedBox name boxes = some p) :
    ∃ e ∈ boxes, e.1 = p ∧ e.2.boxName.str = name := by
  obtain ⟨e, he, rfl⟩ := Option.map_eq_some_iff.mp h
  have hname : isNamed name e = true := List.find?_some he
  exact ⟨e, List.mem_of_find?_eq_some he, rfl, of_decide_eq_true hname⟩

theorem namedBox_none (h : namedBox name boxes = none) :
    ∀ e ∈ boxes, e.2.boxName.str ≠ name := by
  intro e he
  exact of_decide_eq_false (by
    simpa [isNamed] using List.find?_eq_none.mp (Option.map_eq_none_iff.mp h) e he)

/-- Two boxes of a list at one address are one box. -/
theorem box_unique (hl : BoxList nodes first boxes) {d e : Nat × BoxNode} (hd : d ∈ boxes)
    (he : e ∈ boxes) (h : d.1 = e.1) : d = e := by
  have hnode : some d.2 = some e.2 := by rw [← chain_mem hl hd, ← chain_mem hl he, h]
  exact Prod.ext h (Option.some.inj hnode)

/-- What `find_box` returns has another name, and when it returns null there is no such box. -/
theorem otherBox_eq_named (hl : BoxList nodes first boxes)
    (h : (otherBox name boxes).map Prod.fst = namedBox name boxes) : boxes = [] := by
  cases hnamed : namedBox name boxes with
  | some p =>
    rw [hnamed] at h
    obtain ⟨d, hd, hdp⟩ := Option.map_eq_some_iff.mp h
    obtain ⟨e, he, hep, hname⟩ := namedBox_some hnamed
    obtain rfl := box_unique hl (otherBox_some hd).1 he (hdp.trans hep.symm)
    exact absurd hname (otherBox_some hd).2
  | none =>
    rw [hnamed] at h
    have hother := List.find?_eq_none.mp (Option.map_eq_none_iff.mp h)
    apply List.eq_nil_iff_forall_not_mem.mpr
    intro e he
    exact hother e he (decide_eq_true (namedBox_none hnamed e he))

theorem findsExactly_empty (hm : HasString m a name) : FindsExactly nodes none [] m a name :=
  ⟨1, (findBox_ends hm (show BoxList nodes none [] from rfl) 1).1 (Nat.zero_lt_one)⟩

/-- An inserted box is never found under its name. -/
theorem findBox_inserted {newBox : Nat} {new : BoxNode} {nodes' : Heap BoxNode}
    {first' : Option Nat} {boxes' : List (Nat × BoxNode)}
    (hm : HasString m a new.boxName.str)
    (hins : Inserted nodes boxes newBox new nodes' first' boxes') (fuel : Nat) :
    findBox fuel nodes' (some first') m a ≠ .done (ok (some newBox)) := by
  intro hfind
  have hother := ok.inj ((findBox_ends hm hins.list fuel).2 _ hfind)
  obtain ⟨d, hd, hdp⟩ := Option.map_eq_some_iff.mp hother.symm
  have hnew : (newBox, { new with next := none }) ∈ unlinkedBoxes boxes' :=
    hins.perm.mem_iff.mpr (List.mem_cons_self ..)
  obtain ⟨e, he, hunlinked⟩ := List.mem_map.mp hnew
  rw [Prod.mk.injEq] at hunlinked
  obtain rfl := box_unique hins.list (otherBox_some hd).1 he (hdp.trans hunlinked.1.symm)
  have hname := congrArg BoxNode.boxName hunlinked.2
  exact (otherBox_some hd).2 (congrArg BoxName.str hname)

end

/-- `find_box` is right on the empty list only, whatever the name; and once a box is inserted,
it never returns that box for its name. -/
theorem findsExactly_iff {nodes : Heap BoxNode} {first : Option Nat}
    {boxes : List (Nat × BoxNode)} (hl : BoxList nodes first boxes) :
    (∀ (m : Region UInt8) (a : Nat) (name : CStr), HasString m a name →
      (FindsExactly nodes first boxes m a name ↔ boxes = [])) ∧
    (∀ (newBox : Nat) (new : BoxNode) (m : Region UInt8) (a : Nat), Sorted boxes →
      nodes newBox = some new → (∀ e ∈ boxes, e.1 ≠ newBox) → HasString m a new.boxName.str →
      ∃ nodes' first',
        insertionSort boxes.length nodes (some first) newBox = .done (ok (nodes', some first')) ∧
        ∀ fuel, findBox fuel nodes' (some first') m a ≠ .done (ok (some newBox))) := by
  constructor
  · intro m a name hm
    constructor
    · rintro ⟨fuel, hfind⟩
      have hother := ok.inj ((findBox_ends hm hl fuel).2 _ hfind)
      exact otherBox_eq_named hl hother.symm
    · rintro rfl
      obtain rfl : first = none := hl
      exact findsExactly_empty hm
  · intro newBox new m a hs hnew hnot hm
    obtain ⟨nodes', first', boxes', hinsert, hins⟩ :=
      insertionSort_spec hl hs hnew hnot (Nat.le_refl _)
    exact ⟨nodes', first', hinsert, fun fuel => findBox_inserted hm hins fuel⟩

/-- In the empty list there is no `/a`; and `/a`, once inserted, is not found. -/
theorem findsExactly_slashA :
    FindsExactly Heap.empty none [] (nameArgument 97) 0 nodeA.boxName.str ∧
    ∃ nodes' first',
      insertionSort 1 twoNodes (some (some 1)) 2 = .done (ok (nodes', some first')) ∧
      ∀ fuel, findBox fuel nodes' (some first') (nameArgument 97) 0 ≠ .done (ok (some 2)) := by
  have hm : HasString (nameArgument 97) 0 nodeA.boxName.str :=
    ⟨Nat.le_refl 0, by decide, by decide⟩
  constructor
  · have hempty : BoxList Heap.empty none [] := rfl
    exact ((findsExactly_iff hempty).1 (nameArgument 97) 0 _ hm).mpr rfl
  · have hone : BoxList twoNodes (some 1) [(1, nodeB)] := ⟨rfl, rfl, rfl⟩
    exact (findsExactly_iff hone).2 2 nodeA (nameArgument 97) 0 (List.pairwise_singleton _ _) rfl
      (by decide) hm

/-- `/a` is inserted into the empty list, and `find_box` returns null for `/a`. -/
theorem not_findsExactly :
    ¬ ∀ (fuel : Nat) (start nodes : Heap BoxNode) (order : List Nat) (first : Option Nat)
      (boxes : List (Nat × BoxNode)) (m : Region UInt8) (a : Nat) (name : CStr),
      insertAll fuel start (some none) order = .done (ok (nodes, some first)) →
      BoxList nodes first boxes → (boxNames boxes).Nodup → HasString m a name →
      FindsExactly nodes first boxes m a name := by
  intro hall
  have hm : HasString (nameArgument 97) 0 nodeA.boxName.str :=
    ⟨Nat.le_refl 0, by decide, by decide⟩
  have hinsert : insertAll 0 twoNodes (some none) [2] =
      .done (ok (Function.update twoNodes 2 (some nodeA), some (some 2))) := rfl
  have hl : BoxList (Function.update twoNodes 2 (some nodeA)) (some 2) [(2, nodeA)] :=
    ⟨rfl, Function.update_self _ _ _, rfl⟩
  obtain ⟨fuel, hfind⟩ := hall 0 _ _ [2] _ _ _ 0 _ hinsert hl (by decide) hm
  have hnull := (findBox_ends hm hl fuel).2 _ hfind
  exact absurd (ok.inj hnull) (by decide)

end Mbroker
