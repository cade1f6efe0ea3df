import Mbroker.Utils.BoxList

/-!
# `insertion_sort` keeps the list of boxes sorted

The look-ahead loop stops at the last box whose name comes before that of the new one
(`insertPlace_ends`), and the new box is linked in behind it.  Boxes of the same name stay
behind the new one, and the others keep their order.

    insertionSort_spec  : the list is sorted again, and has the new box and all the old ones
    insertAll_spec      : so it is after any sequence of insertions
    insertionSort_sorts : both, and the order of the insertions does not matter
-/

namespace Mbroker

open CLib Outcome Bounded

/-! ## The order of names -/

/-- A byte is before another, behind it or the same. -/
theorem byte_cases (x y : UInt8) :
    (x < y ∧ ¬ y < x ∧ x ≠ y) ∨ x = y ∨ (y < x ∧ ¬ x < y ∧ y ≠ x) := by
  rcases Nat.lt_trichotomy x.toNat y.toNat with h | h | h
  · exact Or.inl ⟨h, UInt8.lt_asymm h, UInt8.ne_of_lt h⟩
  · exact Or.inr (Or.inl (UInt8.toNat_inj.mp h))
  · exact Or.inr (Or.inr ⟨h, UInt8.lt_asymm h, UInt8.ne_of_lt h⟩)

theorem strcmp_lt_iff {xs ys : List UInt8} : strcmp xs ys = .lt ↔ xs < ys := by
  induction xs generalizing ys with
  | nil =>
    cases ys with
    | nil => simp [strcmp]
    | cons y ys => simp [strcmp]
  | cons x xs ih =>
    cases ys with
    | nil => simp [strcmp]
    | cons y ys =>
      rw [List.cons_lt_cons_iff]
      rcases byte_cases x y with ⟨hlt, -, -⟩ | rfl | ⟨hgt, hnlt, hne⟩
      · simp [strcmp, hlt]
      · simp [strcmp, ih]
      · simp [strcmp, hgt, hnlt, hne.symm]

theorem strcmp_gt_iff {xs ys : List UInt8} : strcmp xs ys = .gt ↔ ys < xs := by
  induction xs generalizing ys with
  | nil =>
    cases ys with
    | nil => simp [strcmp]
    | cons y ys => simp [strcmp]
  | cons x xs ih =>
    cases ys with
    | nil => simp [strcmp]
    | cons y ys =>
      rw [List.cons_lt_cons_iff]
      rcases byte_cases x y with ⟨hlt, hngt, hne⟩ | rfl | ⟨hgt, hnlt, hne⟩
      · simp [strcmp, hlt, hngt, hne.symm]
      · simp [strcmp, ih]
      · simp [strcmp, hgt, hnlt]

/-- `strcmp(a, b) <= 0` -/
def BoxName.Le (a b : BoxName) : Prop := a.strcmp b ≠ .gt

theorem BoxName.le_iff {a b : BoxName} : a.Le b ↔ a.str.toList ≤ b.str.toList := by
  unfold Le BoxName.strcmp
  rw [ne_eq, strcmp_gt_iff]
  exact List.not_lt

theorem BoxName.Le.trans {a b c : BoxName} (h : a.Le b) (h' : b.Le c) : a.Le c :=
  le_iff.mpr (List.le_trans (le_iff.mp h) (le_iff.mp h'))

theorem BoxName.ext' {a b : BoxName} (h : a.str = b.str) : a = b := by
  cases a
  cases b
  cases h
  rfl

theorem BoxName.Le.antisymm {a b : BoxName} (h : a.Le b) (h' : b.Le a) : a = b :=
  BoxName.ext' (CStr.ext' (List.le_antisymm (le_iff.mp h) (le_iff.mp h')))

/-- A name that is not before another one is not behind it the other way round. -/
theorem BoxName.le_of_not_lt {a b : BoxName} (h : a.strcmp b ≠ .lt) : b.Le a := by
  unfold BoxName.strcmp at h
  rw [ne_eq, strcmp_lt_iff, List.not_lt] at h
  exact le_iff.mpr h

theorem BoxName.le_of_lt {a b : BoxName} (h : a.strcmp b = .lt) : a.Le b := by
  unfold Le
  rw [h]
  exact fun e => by cases e
/-! ## Sorted lists -/

def boxNames (boxes : List (Nat × BoxNode)) : List BoxName := boxes.map fun e => e.2.boxName

/-- Sorted by `strcmp` on `box_name`. -/
def Sorted (boxes : List (Nat × BoxNode)) : Prop := (boxNames boxes).Pairwise BoxName.Le

/-- The boxes without their links. -/
def unlinkedBoxes (boxes : List (Nat × BoxNode)) : List (Nat × BoxNode) :=
  boxes.map fun e => (e.1, { e.2 with next := none })

@[simp] theorem unlinkedBoxes_nil : unlinkedBoxes [] = [] := rfl

@[simp] theorem unlinkedBoxes_append (l r : List (Nat × BoxNode)) :
    unlinkedBoxes (l ++ r) = unlinkedBoxes l ++ unlinkedBoxes r :=
  List.map_append

@[simp] theorem unlinkedBoxes_cons (p : Nat) (node : BoxNode) (l : List (Nat × BoxNode)) :
    unlinkedBoxes ((p, node) :: l) = (p, { node with next := none }) :: unlinkedBoxes l :=
  rfl

/-- Links do not matter to names and addresses. -/
theorem boxNames_unlinked (boxes : List (Nat × BoxNode)) :
    boxNames (unlinkedBoxes boxes) = boxNames boxes := by
  unfold boxNames unlinkedBoxes
  rw [List.map_map]
  rfl

theorem addresses_unlinked (boxes : List (Nat × BoxNode)) :
    (unlinkedBoxes boxes).map Prod.fst = boxes.map Prod.fst := by
  unfold unlinkedBoxes
  rw [List.map_map]
  rfl

/-- The list `boxes'` is the sorted list `boxes` with one more box, `new` at `newBox`; no other
object has changed. -/
structure Inserted (nodes : Heap BoxNode) (boxes : List (Nat × BoxNode)) (newBox : Nat)
    (new : BoxNode) (nodes' : Heap BoxNode) (first' : Option Nat)
    (boxes' : List (Nat × BoxNode)) : Prop where
  list : BoxList nodes' first' boxes'
  sorted : Sorted boxes'
  split : ∃ l r, boxes = l ++ r ∧ unlinkedBoxes boxes' =
    unlinkedBoxes l ++ (newBox, { new with next := none }) :: unlinkedBoxes r
  frame : ∀ p, p ≠ newBox → (∀ e ∈ boxes, e.1 ≠ p) → nodes' p = nodes p

/-- A name between those of the left and those of the right part. -/
theorem sorted_insert {l r : List (Nat × BoxNode)} {name : BoxName} (hs : Sorted (l ++ r))
    (hl : ∀ e ∈ l, e.2.boxName.Le name) (hr : ∀ e ∈ r, name.Le e.2.boxName) :
    (boxNames l ++ name :: boxNames r).Pairwise BoxName.Le := by
  unfold Sorted boxNames at hs
  rw [List.map_append, List.pairwise_append] at hs
  obtain ⟨hsl, hsr, hlr⟩ := hs
  have hl' : ∀ a ∈ boxNames l, a.Le name := by
    intro a ha
    obtain ⟨e, he, rfl⟩ := List.mem_map.mp ha
    exact hl e he
  have hr' : ∀ b ∈ boxNames r, name.Le b := by
    intro b hb
    obtain ⟨e, he, rfl⟩ := List.mem_map.mp hb
    exact hr e he
  rw [List.pairwise_append, List.pairwise_cons]
  refine ⟨hsl, ⟨hr', hsr⟩, fun a ha b hb => ?_⟩
  cases hb with
  | head => exact hl' a ha
  | tail _ hb => exact hlr a ha b hb

/-- In a sorted list, a name that is not behind the first one is behind none. -/
theorem sorted_bound {p : Nat} {node : BoxNode} {r : List (Nat × BoxNode)} {name : BoxName}
    (hs : Sorted ((p, node) :: r)) (hp : name.Le node.boxName) :
    ∀ e ∈ (p, node) :: r, name.Le e.2.boxName := by
  intro e he
  cases he with
  | head => exact hp
  | tail _ he =>
    exact hp.trans ((List.pairwise_cons.mp hs).1 _ (List.mem_map.mpr ⟨e, he, rfl⟩))

/-! ## The loop -/

section
variable {nodes : Heap BoxNode} {first : Option Nat} {boxes : List (Nat × BoxNode)} {newBox : Nat}
  {new : BoxNode}

/-- From a box before the new one the loop gets to the last such box. -/
theorem insertPlace_ends {p : Nat} {node : BoxNode}
    (hl : BoxList nodes (some p) ((p, node) :: boxes))
    (hs : Sorted ((p, node) :: boxes)) (hp : node.boxName.strcmp new.boxName = .lt) {fuel : Nat}
    (hf : boxes.length < fuel) :
    ∃ l q last r, (p, node) :: boxes = l ++ (q, last) :: r ∧
      loop (insertPlace nodes new) fuel (some p) = .done (ok (some q)) ∧
      (∀ e ∈ l ++ [(q, last)], e.2.boxName.Le new.boxName) ∧
      ∀ e ∈ r, new.boxName.Le e.2.boxName := by
  induction boxes generalizing p node fuel with
  | nil =>
    obtain ⟨k, rfl⟩ : ∃ k, fuel = k + 1 := ⟨fuel - 1, by omega⟩
    have hnext : node.next = none := hl.2.2
    have hstop : insertPlace nodes new (some p) = ok (.inr (some p)) := by
      simp [insertPlace, Heap.load_ok hl.2.1, hnext]
    refine ⟨[], p, node, [], rfl, loop_leave hstop k, ?_, fun e he => by cases he⟩
    intro e he
    rw [List.nil_append, List.mem_singleton] at he
    exact he ▸ BoxName.le_of_lt hp
  | cons d boxes ih =>
    obtain ⟨q, next⟩ := d
    obtain ⟨-, hnode, hnext, hq, hrest⟩ := hl
    obtain ⟨k, rfl⟩ : ∃ k, fuel = k + 1 := ⟨fuel - 1, by omega⟩
    have htail : Sorted ((q, next) :: boxes) := (List.pairwise_cons.mp hs).2
    by_cases hlt : next.boxName.strcmp new.boxName = .lt
    · have hgo : insertPlace nodes new (some p) = ok (.inl (some q)) := by
        simp [insertPlace, Heap.load_ok hnode, hnext, Heap.load_ok hq, hlt]
      have hk : boxes.length < k := by simpa using hf
      obtain ⟨l, c, last, r, hsplit, hloop, hbefore, hbehind⟩ := ih ⟨rfl, hq, hrest⟩ htail hlt hk
      refine ⟨(p, node) :: l, c, last, r, ?_, (loop_next hgo k).trans hloop, ?_, hbehind⟩
      · rw [hsplit]; rfl
      · intro e he
        cases he with
        | head => exact BoxName.le_of_lt hp
        | tail _ he => exact hbefore e he
    · have hstop : insertPlace nodes new (some p) = ok (.inr (some p)) := by
        simp [insertPlace, Heap.load_ok hnode, hnext, Heap.load_ok hq, hlt]
      refine ⟨[], p, node, (q, next) :: boxes, rfl, loop_leave hstop k, ?_, ?_⟩
      · intro e he
        rw [List.nil_append, List.mem_singleton] at he
        exact he ▸ BoxName.le_of_lt hp
      · exact sorted_bound htail (BoxName.le_of_not_lt hlt)

/-- The new box linked in behind box `q`. -/
theorem boxList_splice {l r : List (Nat × BoxNode)} {q : Nat} {last : BoxNode}
    (hl : BoxList nodes first (l ++ (q, last) :: r))
    (hnot : ∀ e ∈ l ++ (q, last) :: r, e.1 ≠ newBox) :
    BoxList (Function.update (Function.update nodes newBox (some { new with next := last.next })) q
        (some { last with next := some newBox })) first
      (l ++ (q, { last with next := some newBox }) ::
        (newBox, { new with next := last.next }) :: r) := by
  have hnodup := chain_nodup hl
  induction l generalizing first with
  | nil =>
    obtain ⟨hfirst, hq, hrest⟩ := hl
    rw [List.nil_append, List.map_cons, List.nodup_cons] at hnodup
    rw [List.nil_append, List.forall_mem_cons] at hnot
    refine ⟨hfirst, Function.update_self _ _ _, rfl, ?_, chain_congr hrest (fun e he => ?_)⟩
    · rw [Function.update_of_ne hnot.1.symm, Function.update_self]
    · have hne : e.1 ≠ q := fun h => hnodup.1 (List.mem_map.mpr ⟨e, he, h⟩)
      rw [Function.update_of_ne hne, Function.update_of_ne (hnot.2 e he)]
  | cons d l ih =>
    obtain ⟨p, node⟩ := d
    obtain ⟨hfirst, hp, hrest⟩ := hl
    rw [List.cons_append, List.map_cons, List.nodup_cons] at hnodup
    rw [List.cons_append, List.forall_mem_cons] at hnot
    have hne : p ≠ q := by
      rintro rfl
      exact hnodup.1 (List.mem_map.mpr ⟨(p, last), by simp, rfl⟩)
    refine ⟨hfirst, ?_, ih hrest hnot.2 hnodup.2⟩
    rw [Function.update_of_ne hne, Function.update_of_ne hnot.1, hp]

/-- Linked in before the first box. -/
theorem inserted_first (hl : BoxList nodes first boxes) (hs : Sorted boxes)
    (hnot : ∀ e ∈ boxes, e.1 ≠ newBox) (hle : ∀ e ∈ boxes, new.boxName.Le e.2.boxName) :
    Inserted nodes boxes newBox new
      (Function.update nodes newBox (some { new with next := first })) (some newBox)
      ((newBox, { new with next := first }) :: boxes) where
  list := by
    refine ⟨rfl, Function.update_self _ _ _, chain_congr hl (fun e he => ?_)⟩
    exact Function.update_of_ne (hnot e he) _ _
  sorted := sorted_insert (l := []) hs (fun e he => by cases he) hle
  split := ⟨[], boxes, rfl, rfl⟩
  frame p hp _ := Function.update_of_ne hp _ _

/-- Linked in behind box `q`. -/
theorem inserted_behind {l r : List (Nat × BoxNode)} {q : Nat} {last : BoxNode}
    (hl : BoxList nodes first (l ++ (q, last) :: r)) (hs : Sorted (l ++ (q, last) :: r))
    (hnot : ∀ e ∈ l ++ (q, last) :: r, e.1 ≠ newBox)
    (hbefore : ∀ e ∈ l ++ [(q, last)], e.2.boxName.Le new.boxName)
    (hbehind : ∀ e ∈ r, new.boxName.Le e.2.boxName) :
    Inserted nodes (l ++ (q, last) :: r) newBox new
      (Function.update (Function.update nodes newBox (some { new with next := last.next })) q
        (some { last with next := some newBox })) first
      (l ++ (q, { last with next := some newBox }) ::
        (newBox, { new with next := last.next }) :: r) where
  list := boxList_splice hl hnot
  sorted := by
    have happ : l ++ (q, last) :: r = (l ++ [(q, last)]) ++ r := by simp
    rw [happ] at hs
    have hsorted := sorted_insert hs hbefore hbehind
    simpa [Sorted, boxNames] using hsorted
  split := ⟨l ++ [(q, last)], r, by simp, by simp⟩
  frame p hp hout := by
    have hpq : p ≠ q := fun h => hout (q, last) (by simp) h.symm
    rw [Function.update_of_ne hpq, Function.update_of_ne hp]

theorem insertionSort_spec (hl : BoxList nodes first boxes) (hs : Sorted boxes)
    (hnew : nodes newBox = some new) (hnot : ∀ e ∈ boxes, e.1 ≠ newBox) {fuel : Nat}
    (hf : boxes.length ≤ fuel) : ∃ nodes' first' boxes',
    insertionSort fuel nodes (some first) newBox = .done (ok (nodes', some first')) ∧
      Inserted nodes boxes newBox new nodes' first' boxes' := by
  have hload := Heap.load_ok hnew
  -- the new box becomes the first one
  have hahead : ∀ h : insertsFirst nodes new first = ok true,
      insertionSort fuel nodes (some first) newBox =
        .done (ok (Function.update nodes newBox (some { new with next := first }),
          some (some newBox))) := by
    intro h
    simp [insertionSort, hload, h, Heap.store_ok hnew]
  cases boxes with
  | nil =>
    obtain rfl : first = none := hl
    exact ⟨_, _, _, hahead rfl, inserted_first rfl hs hnot (fun e he => by cases he)⟩
  | cons d boxes =>
    obtain ⟨p, node⟩ := d
    obtain ⟨rfl, hp, hrest⟩ := hl
    have hfirst : insertsFirst nodes new (some p) =
        ok (decide (node.boxName.strcmp new.boxName ≠ .lt)) := by
      simp [insertsFirst, Heap.load_ok hp]
    by_cases hlt : node.boxName.strcmp new.boxName = .lt
    swap
    · rw [decide_eq_true hlt] at hfirst
      exact ⟨_, _, _, hahead hfirst, inserted_first ⟨rfl, hp, hrest⟩ hs hnot
        (sorted_bound hs (BoxName.le_of_not_lt hlt))⟩
    · rw [decide_eq_false (by simpa using hlt)] at hfirst
      have hk : boxes.length < fuel := hf
      have hlist : BoxList nodes (some p) ((p, node) :: boxes) := ⟨rfl, hp, hrest⟩
      obtain ⟨l, q, last, r, hsplit, hloop, hbefore, hbehind⟩ := insertPlace_ends hlist hs hlt hk
      rw [hsplit] at hlist hs hnot ⊢
      refine ⟨_, _, _, ?_, inserted_behind hlist hs hnot hbefore hbehind⟩
      have hq := chain_mem hlist (show (q, last) ∈ l ++ (q, last) :: r by simp)
      have hne : q ≠ newBox := hnot (q, last) (by simp)
      have hq' : Function.update nodes newBox (some { new with next := last.next }) q = some last :=
        (Function.update_of_ne hne _ _).trans hq
      simp only [insertionSort, hload, hfirst, hloop, Heap.load_ok hq, Heap.store_ok hnew,
        Heap.load_ok hq', Heap.store_ok hq', lift_eq, Bounded.ok_bind, Bounded.pure_eq,
        Bool.false_eq_true, if_false]

/-! ## Any sequence of insertions -/

theorem Inserted.perm {nodes' : Heap BoxNode} {first' : Option Nat} {boxes' : List (Nat × BoxNode)}
    (h : Inserted nodes boxes newBox new nodes' first' boxes') :
    (unlinkedBoxes boxes').Perm ((newBox, { new with next := none }) :: unlinkedBoxes boxes) := by
  obtain ⟨l, r, rfl, hsplit⟩ := h.split
  rw [hsplit, unlinkedBoxes_append]
  exact List.perm_middle

theorem Inserted.length {nodes' : Heap BoxNode} {first' : Option Nat}
    {boxes' : List (Nat × BoxNode)} (h : Inserted nodes boxes newBox new nodes' first' boxes') :
    boxes'.length = boxes.length + 1 := by
  simpa [unlinkedBoxes] using h.perm.length_eq

theorem Inserted.address {nodes' : Heap BoxNode} {first' : Option Nat}
    {boxes' : List (Nat × BoxNode)} (h : Inserted nodes boxes newBox new nodes' first' boxes')
    {d : Nat × BoxNode} (hd : d ∈ boxes') : d.1 = newBox ∨ ∃ e ∈ boxes, e.1 = d.1 := by
  have hperm := h.perm.map Prod.fst
  rw [addresses_unlinked, List.map_cons, addresses_unlinked] at hperm
  have hmem := hperm.mem_iff.mp (List.mem_map.mpr ⟨d, hd, rfl⟩)
  rw [List.mem_cons, List.mem_map] at hmem
  exact hmem

end

/-- The boxes at the addresses `order` are inserted one after the other. -/
def insertAll (fuel : Nat) (nodes : Heap BoxNode) (head : Option (Option Nat)) :
    List Nat → Bounded (Heap BoxNode × Option (Option Nat))
  | [] => pure (nodes, head)
  | newBox :: order => do
    let (nodes, head) ← insertionSort fuel nodes head newBox
    insertAll fuel nodes head order

theorem insertAll_spec {nodes : Heap BoxNode} {first : Option Nat}
    {boxes order : List (Nat × BoxNode)} (hl : BoxList nodes first boxes) (hs : Sorted boxes)
    (hnew : ∀ e ∈ order, nodes e.1 = some e.2) (hnodup : (order.map Prod.fst).Nodup)
    (hnot : ∀ e ∈ order, ∀ d ∈ boxes, d.1 ≠ e.1) {fuel : Nat}
    (hf : boxes.length + order.length ≤ fuel) : ∃ nodes' first' boxes',
    insertAll fuel nodes (some first) (order.map Prod.fst) = .done (ok (nodes', some first')) ∧
      BoxList nodes' first' boxes' ∧ Sorted boxes' ∧
      (unlinkedBoxes boxes').Perm (unlinkedBoxes (order ++ boxes)) := by
  induction order generalizing nodes first boxes with
  | nil => exact ⟨nodes, first, boxes, rfl, hl, hs, List.Perm.refl _⟩
  | cons e order ih =>
    obtain ⟨newBox, new⟩ := e
    rw [List.forall_mem_cons] at hnew hnot
    rw [List.map_cons, List.nodup_cons] at hnodup
    rw [List.length_cons] at hf
    have hfuel : boxes.length ≤ fuel := by omega
    obtain ⟨nodes₁, first₁, boxes₁, hinsert, hins⟩ :=
      insertionSort_spec hl hs hnew.1 hnot.1 hfuel
    have hne : ∀ e ∈ order, e.1 ≠ newBox :=
      fun e he h => hnodup.1 (List.mem_map.mpr ⟨e, he, h⟩)
    -- the boxes that are still to come are as they were
    have hnew₁ : ∀ e ∈ order, nodes₁ e.1 = some e.2 := fun e he =>
      (hins.frame e.1 (hne e he) (hnot.2 e he)).trans (hnew.2 e he)
    have hnot₁ : ∀ e ∈ order, ∀ d ∈ boxes₁, d.1 ≠ e.1 := by
      intro e he d hd h
      rcases hins.address hd with hd | ⟨c, hc, hcd⟩
      · exact hne e he (h.symm.trans hd)
      · exact hnot.2 e he c hc (hcd.trans h)
    obtain ⟨nodes', first', boxes', hrest, hlist, hsorted, hperm⟩ :=
      ih hins.list hins.sorted hnew₁ hnodup.2 hnot₁ (by rw [hins.length]; omega)
    refine ⟨nodes', first', boxes', ?_, hlist, hsorted, hperm.trans ?_⟩
    · simp only [List.map_cons, insertAll, hinsert, Bounded.ok_bind, hrest]
    · rw [unlinkedBoxes_append, List.cons_append, unlinkedBoxes_cons, unlinkedBoxes_append]
      exact (hins.perm.append_left _).trans List.perm_middle

/-- Sorted lists of the same boxes have the same names in the same order. -/
theorem boxNames_eq_of_perm {boxes boxes' : List (Nat × BoxNode)} (hs : Sorted boxes)
    (hs' : Sorted boxes') (hperm : (unlinkedBoxes boxes).Perm (unlinkedBoxes boxes')) :
    boxNames boxes = boxNames boxes' := by
  have hnames : (boxNames boxes).Perm (boxNames boxes') := by
    rw [← boxNames_unlinked boxes, ← boxNames_unlinked boxes']
    exact hperm.map _
  exact hnames.eq_of_pairwise (fun a b _ _ hab hba => hab.antisymm hba) hs hs'

theorem insertionSort_sorts :
    (∀ (nodes : Heap BoxNode) (first : Option Nat) (boxes : List (Nat × BoxNode)) (newBox : Nat)
      (new : BoxNode) (fuel : Nat), BoxList nodes first boxes → Sorted boxes →
      nodes newBox = some new → (∀ e ∈ boxes, e.1 ≠ newBox) → boxes.length ≤ fuel →
      ∃ nodes' first' boxes',
        insertionSort fuel nodes (some first) newBox = .done (ok (nodes', some first')) ∧
        Inserted nodes boxes newBox new nodes' first' boxes') ∧
    (∀ (nodes : Heap BoxNode) (order order' : List (Nat × BoxNode)) (fuel : Nat),
      order.Perm order' → (∀ e ∈ order, nodes e.1 = some e.2) → (order.map Prod.fst).Nodup →
      order.length ≤ fuel → ∃ nodes₁ first₁ boxes₁ nodes₂ first₂ boxes₂,
        insertAll fuel nodes (some none) (order.map Prod.fst) = .done (ok (nodes₁, some first₁)) ∧
        BoxList nodes₁ first₁ boxes₁ ∧
        insertAll fuel nodes (some none) (order'.map Prod.fst) =
          .done (ok (nodes₂, some first₂)) ∧
        BoxList nodes₂ first₂ boxes₂ ∧ boxNames boxes₁ = boxNames boxes₂) := by
  constructor
  · intro nodes first boxes newBox new fuel hl hs hnew hnot hf
    exact insertionSort_spec hl hs hnew hnot hf
  · intro nodes order order' fuel hperm hnew hnodup hf
    have hempty : BoxList nodes none [] := rfl
    have hf₁ : ([] : List (Nat × BoxNode)).length + order.length ≤ fuel := by
      rwa [List.length_nil, Nat.zero_add]
    have hf₂ : ([] : List (Nat × BoxNode)).length + order'.length ≤ fuel := by
      rwa [← hperm.length_eq]
    obtain ⟨nodes₁, first₁, boxes₁, h₁, hl₁, hs₁, hp₁⟩ := insertAll_spec hempty
      List.Pairwise.nil hnew hnodup (fun _ _ d hd => by cases hd) hf₁
    obtain ⟨nodes₂, first₂, boxes₂, h₂, hl₂, hs₂, hp₂⟩ := insertAll_spec hempty
      List.Pairwise.nil (fun e he => hnew e (hperm.mem_iff.mpr he))
      ((hperm.map Prod.fst).nodup_iff.mp hnodup) (fun _ _ d hd => by cases hd) hf₂
    refine ⟨nodes₁, first₁, boxes₁, nodes₂, first₂, boxes₂, h₁, hl₁, h₂, hl₂, ?_⟩
    refine boxNames_eq_of_perm hs₁ hs₂ (hp₁.trans (List.Perm.trans ?_ hp₂.symm))
    rw [List.append_nil, List.append_nil]
    exact hperm.map _

theorem slash_nonul {c : UInt8} (hc : c ≠ 0) : ∀ d ∈ [47, c], d ≠ 0 := by
  simp [hc]

/-- A slash and one more character. -/
def slashName (c : UInt8) (hc : c ≠ 0) : BoxName where
  str := ⟨[47, c], slash_nonul hc⟩
  fits := (by decide : 2 < maxBoxName)

def nodeA : BoxNode := ⟨slashName 97 (by decide), 0, 1024, 0, 0, none⟩ -- "/a"
def nodeB : BoxNode := ⟨slashName 98 (by decide), 0, 1024, 0, 0, none⟩ -- "/b"

def twoNodes : Heap BoxNode :=
  Function.update (Function.update Heap.empty 1 (some nodeB)) 2 (some nodeA)

/-- `/a` comes before `/b`, whichever is inserted first. -/
theorem insertionSort_sorts_two :
    (∃ nodes' first' boxes',
      insertionSort 1 twoNodes (some (some 1)) 2 = .done (ok (nodes', some first')) ∧
      Inserted twoNodes [(1, nodeB)] 2 nodeA nodes' first' boxes') ∧
    ∃ nodes₁ first₁ boxes₁ nodes₂ first₂ boxes₂,
      insertAll 2 twoNodes (some none) [1, 2] = .done (ok (nodes₁, some first₁)) ∧
      BoxList nodes₁ first₁ boxes₁ ∧
      insertAll 2 twoNodes (some none) [2, 1] = .done (ok (nodes₂, some first₂)) ∧
      BoxList nodes₂ first₂ boxes₂ ∧ boxNames boxes₁ = boxNames boxes₂ := by
  constructor
  · exact insertionSort_sorts.1 twoNodes (some 1) [(1, nodeB)] 2 nodeA 1 ⟨rfl, rfl, rfl⟩
      (List.pairwise_singleton _ _) rfl (by decide) (by decide)
  · exact insertionSort_sorts.2 twoNodes [(1, nodeB), (2, nodeA)] [(2, nodeA), (1, nodeB)] 2
      (List.Perm.swap _ _ _) (by decide) (by decide) (by decide)

end Mbroker
