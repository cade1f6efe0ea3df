import Mathlib.Data.List.Nodup
import Mathlib.Data.Set.Subsingleton
import Mbroker.Lib.Run
import Mbroker.Utils.BoxLookup

/-!
# Any sequence of calls to the list of boxes

What the list is for: to each name there belongs a stack of boxes.  An insertion puts a box
on the stack of its name, a removal takes the last one off again, and `find_box` comes to
the top of the first stack that is not the one of the name.  A removal returns only when the
stack is not empty and at most one box has a smaller name.

    BoxStore.Refines  : the sorted list holds the boxes of the stacks
    insertPlace_lt    : a box is inserted before those of the same name
    boxStore_traces   : list and stacks have the same sequences of calls and answers
-/

namespace Mbroker

open CLib Outcome Bounded

/-! ## The calls -/

/-- A string argument: `name` is at `a` in `m`. -/
structure NameArg where
  m : Region UInt8
  a : Nat
  name : CStr
  named : HasString m a name

inductive BoxCall where
  /-- `insertion_sort(head, newBox_b(name, …))`; `addr` is what `malloc` returns. -/
  | insert (addr : Option Nat) (name : CStr) (last : UInt8)
    (boxSize nPublishers nSubscribers : UInt64)
  | find (boxName : NameArg)
  | remove (boxName : NameArg)

inductive BoxAnswer where
  | inserted
  | found (aux : Option Nat)
  | removed (success : Bool)

structure BoxStore where
  nodes : Heap BoxNode
  head : Option (Option Nat)

namespace BoxStore

def exec (s : BoxStore) (fuel : Nat) : BoxCall → Bounded (BoxAnswer × BoxStore)
  | .insert addr name last boxSize nPublishers nSubscribers => do
    let (newBox, nodes) ← newBoxB s.nodes addr name last boxSize nPublishers nSubscribers
    let (nodes, head) ← insertionSort fuel nodes s.head newBox
    return (.inserted, ⟨nodes, head⟩)
  | .find boxName => do
    let aux ← findBox fuel s.nodes s.head boxName.m boxName.a
    return (.found aux, s)
  | .remove boxName => do
    let (success, nodes, head) ← removeBox fuel s.nodes s.head boxName.m boxName.a
    return (.removed success, ⟨nodes, head⟩)

/-- `malloc` returns no address that is in use.  No box is freed. -/
def Fresh (s : BoxStore) : BoxCall → Prop
  | .insert (some p) .. => s.nodes p = none
  | _ => True

/-- The call returns. -/
def Step (s : BoxStore) (c : BoxCall) (r : BoxAnswer) (s' : BoxStore) : Prop :=
  s.Fresh c ∧ ∃ fuel, s.exec fuel c = .done (ok (r, s'))

end BoxStore

/-! ## The stacks -/

/-- For each name its boxes, the last one first, and the addresses that `malloc` has returned. -/
structure BoxStacks where
  boxes : BoxName → List (Nat × BoxNode)
  used : Set Nat

namespace BoxStacks

def init (used : Set Nat) : BoxStacks := ⟨fun _ => [], used⟩

/-- The boxes with a smaller name. -/
def Before (S : BoxStacks) (name : BoxName) : Set (Nat × BoxNode) :=
  {e | ∃ n, n.Le name ∧ n ≠ name ∧ e ∈ S.boxes n}

inductive Step (S : BoxStacks) : BoxCall → BoxAnswer → BoxStacks → Prop
  | insert {p : Nat} {name : BoxName} (last : UInt8) (boxSize nPublishers nSubscribers : UInt64)
    (hp : p ∉ S.used) : Step S
      (.insert (some p) name.str last boxSize nPublishers nSubscribers) .inserted
      { boxes := Function.update S.boxes name
          ((p, ⟨name, last, boxSize, nPublishers, nSubscribers, none⟩) :: S.boxes name)
        used := insert p S.used }
  | findNone {boxName : NameArg} (h : ∀ n : BoxName, n.str ≠ boxName.name → S.boxes n = []) :
    Step S (.find boxName) (.found none) S
  | find {boxName : NameArg} {n : BoxName} {e : Nat × BoxNode} {rest : List (Nat × BoxNode)}
    (hn : n.str ≠ boxName.name) (h : S.boxes n = e :: rest)
    (hleast : ∀ n' : BoxName, n'.str ≠ boxName.name → S.boxes n' ≠ [] → n.Le n') :
    Step S (.find boxName) (.found (some e.1)) S
  | remove {boxName : NameArg} {n : BoxName} {e : Nat × BoxNode} {rest : List (Nat × BoxNode)}
    (hn : n.str = boxName.name) (h : S.boxes n = e :: rest) (hfew : (S.Before n).Subsingleton) :
    Step S (.remove boxName) (.removed true)
      { S with boxes := Function.update S.boxes n rest }

/-- There is one answer to `find_box`. -/
theorem Step.find_unique {S S₁ S₂ : BoxStacks} {boxName : NameArg} {r₁ r₂ : BoxAnswer}
    (h₁ : S.Step (.find boxName) r₁ S₁) (h₂ : S.Step (.find boxName) r₂ S₂) :
    r₁ = r₂ ∧ S₁ = S₂ := by
  cases h₁ with
  | findNone hnone =>
    cases h₂ with
    | findNone => exact ⟨rfl, rfl⟩
    | find hn h =>
      rw [hnone _ hn] at h
      cases h
  | find hn h hleast =>
    cases h₂ with
    | findNone hnone =>
      rw [hnone _ hn] at h
      cases h
    | find hn' h' hleast' =>
      have hle := hleast _ hn' (by rw [h']; exact List.cons_ne_nil _ _)
      have hle' := hleast' _ hn (by rw [h]; exact List.cons_ne_nil _ _)
      obtain rfl := hle.antisymm hle'
      rw [h] at h'
      cases h'
      exact ⟨rfl, rfl⟩

end BoxStacks

/-! ## The stacks of a list -/

/-- The boxes of a name, without their links. -/
def stackOf (name : BoxName) (boxes : List (Nat × BoxNode)) : List (Nat × BoxNode) :=
  (unlinkedBoxes boxes).filter fun e => decide (e.2.boxName = name)

section
variable {name : BoxName} {boxes l r : List (Nat × BoxNode)} {p : Nat} {node : BoxNode}

theorem stackOf_append : stackOf name (l ++ r) = stackOf name l ++ stackOf name r := by
  unfold stackOf
  rw [unlinkedBoxes_append, List.filter_append]

theorem stackOf_cons_self (h : node.boxName = name) :
    stackOf name ((p, node) :: r) = (p, { node with next := none }) :: stackOf name r :=
  List.filter_cons_of_pos (decide_eq_true h)

theorem stackOf_cons_ne (h : node.boxName ≠ name) :
    stackOf name ((p, node) :: r) = stackOf name r :=
  List.filter_cons_of_neg (by simpa using h)

theorem mem_stackOf {e : Nat × BoxNode} : e ∈ stackOf name boxes ↔
    ∃ d ∈ boxes, d.2.boxName = name ∧ e = (d.1, { d.2 with next := none }) := by
  unfold stackOf unlinkedBoxes
  rw [List.mem_filter, List.mem_map, decide_eq_true_eq]
  constructor
  · rintro ⟨⟨d, hd, rfl⟩, hname⟩
    exact ⟨d, hd, hname, rfl⟩
  · rintro ⟨d, hd, hname, rfl⟩
    exact ⟨⟨d, hd, rfl⟩, hname⟩

theorem stackOf_eq_nil (h : ∀ e ∈ boxes, e.2.boxName ≠ name) : stackOf name boxes = [] := by
  rw [List.eq_nil_iff_forall_not_mem]
  intro e he
  obtain ⟨d, hd, hname, -⟩ := mem_stackOf.mp he
  exact h d hd hname

/-- Links do not matter to the stacks. -/
theorem stackOf_congr (h : unlinkedBoxes l = unlinkedBoxes r) :
    stackOf name l = stackOf name r := by
  unfold stackOf
  rw [h]

theorem sorted_of_unlinked (hs : Sorted l) (h : unlinkedBoxes r = unlinkedBoxes l) :
    Sorted r := by
  unfold Sorted at *
  rwa [← boxNames_unlinked, h, boxNames_unlinked]

/-- A box of a sorted list is not behind those that come after it. -/
theorem sorted_le (hs : Sorted (l ++ (p, node) :: r)) :
    (∀ e ∈ l, e.2.boxName.Le node.boxName) ∧ ∀ e ∈ r, node.boxName.Le e.2.boxName := by
  unfold Sorted boxNames at hs
  rw [List.map_append, List.map_cons, List.pairwise_append, List.pairwise_cons] at hs
  obtain ⟨-, ⟨hr, -⟩, hl⟩ := hs
  exact ⟨fun e he => hl _ (List.mem_map.mpr ⟨e, he, rfl⟩) _ (List.mem_cons_self ..),
    fun e he => hr _ (List.mem_map.mpr ⟨e, he, rfl⟩)⟩

end

/-! ## Insertions -/

section
variable {nodes : Heap BoxNode} {first : Option Nat} {boxes : List (Nat × BoxNode)} {newBox : Nat}
  {new : BoxNode}

/-- The loop has come to `q`, past boxes that are before the new one. -/
def PassedTo (new : BoxNode) (boxes : List (Nat × BoxNode)) (q : Option Nat) : Prop :=
  ∃ l last r, boxes = l ++ last :: r ∧ q = some last.1 ∧
    ∀ e ∈ l ++ [last], e.2.boxName.strcmp new.boxName = .lt

/-- The next box is only gone to when its name is before the new one. -/
theorem passedTo_step (hl : BoxList nodes first boxes) {q q' : Option Nat}
    (h : PassedTo new boxes q) (hgo : insertPlace nodes new q = ok (.inl q')) :
    PassedTo new boxes q' := by
  obtain ⟨l, ⟨c, last⟩, r, hsplit, rfl, hlt⟩ := h
  have hchain := chain_suffix (hsplit ▸ hl)
  have hlast : nodes c = some last := hchain.2.1
  cases r with
  | nil =>
    have hnext : last.next = none := hchain.2.2
    simp [insertPlace, Heap.load_ok hlast, hnext] at hgo
  | cons d r =>
    obtain ⟨d, next⟩ := d
    obtain ⟨-, -, hnext, hd, -⟩ := hchain
    by_cases hname : next.boxName.strcmp new.boxName = .lt
    · obtain rfl : some d = q' := by
        simpa [insertPlace, Heap.load_ok hlast, hnext, Heap.load_ok hd, hname] using hgo
      refine ⟨l ++ [(c, last)], (d, next), r, by rw [hsplit]; simp, rfl, fun e he => ?_⟩
      rw [List.mem_append, List.mem_singleton] at he
      rcases he with he | rfl
      · exact hlt e he
      · exact hname
    · simp [insertPlace, Heap.load_ok hlast, hnext, Heap.load_ok hd, hname] at hgo

/-- The loop is left where it is. -/
theorem insertPlace_leave {p q : Option Nat} (h : insertPlace nodes new p = ok (.inr q)) :
    q = p := by
  unfold insertPlace at h
  obtain ⟨node, -, h⟩ := (Outcome.bind_eq_ok _ _ _).mp h
  split at h
  · cases h
    rfl
  · obtain ⟨next, -, h⟩ := (Outcome.bind_eq_ok _ _ _).mp h
    split at h
    · cases h
    · cases h
      rfl

/-- The loop stops at a box before the new one, and has only passed such boxes. -/
theorem insertPlace_lt {p : Nat} {node : BoxNode}
    (hl : BoxList nodes (some p) ((p, node) :: boxes))
    (hp : node.boxName.strcmp new.boxName = .lt) {fuel : Nat} {q : Option Nat}
    (h : loop (insertPlace nodes new) fuel (some p) = .done (ok q)) :
    PassedTo new ((p, node) :: boxes) q := by
  have h0 : PassedTo new ((p, node) :: boxes) (some p) := by
    refine ⟨[], (p, node), boxes, rfl, rfl, fun e he => ?_⟩
    rw [List.nil_append, List.mem_singleton] at he
    exact he ▸ hp
  obtain ⟨q', hpassed, hleave⟩ :=
    loop_ends (PassedTo new ((p, node) :: boxes)) (fun _ _ => passedTo_step hl) h0 h
  exact insertPlace_leave hleave ▸ hpassed

/-- A box is in one place of a list only. -/
theorem split_unique {l l' r r' : List (Nat × BoxNode)} {e : Nat × BoxNode}
    (hl : BoxList nodes first boxes) (h : boxes = l ++ e :: r) (h' : boxes = l' ++ e :: r') :
    l = l' := by
  have hnodup : boxes.Nodup := List.Nodup.of_map Prod.fst (chain_nodup hl)
  rw [h] at h' hnodup
  have hnot := List.perm_middle.nodup_iff.mp hnodup
  rw [List.nodup_cons, List.mem_append, not_or] at hnot
  exact ((List.append_cons_inj_of_notMem hnot.1.1 hnot.1.2).mp h').1

/-- The new box comes behind those with a smaller name, and before all others. -/
theorem insertionSort_before (hl : BoxList nodes first boxes) (hs : Sorted boxes)
    (hnew : nodes newBox = some new) (hnot : ∀ e ∈ boxes, e.1 ≠ newBox) :
    ∃ nodes' first' boxes' l r,
      insertionSort boxes.length nodes (some first) newBox = .done (ok (nodes', some first')) ∧
      Inserted nodes boxes newBox new nodes' first' boxes' ∧ boxes = l ++ r ∧
      unlinkedBoxes boxes' =
        unlinkedBoxes l ++ (newBox, { new with next := none }) :: unlinkedBoxes r ∧
      ∀ e ∈ l, e.2.boxName.strcmp new.boxName = .lt := by
  have hload := Heap.load_ok hnew
  have hahead : ∀ h : insertsFirst nodes new first = ok true,
      insertionSort boxes.length nodes (some first) newBox =
        .done (ok (Function.update nodes newBox (some { new with next := first }),
          some (some newBox))) := by
    intro h
    simp [insertionSort, hload, h, Heap.store_ok hnew]
  cases boxes with
  | nil =>
    obtain rfl : first = none := hl
    exact ⟨_, _, _, [], [], hahead rfl, inserted_first rfl hs hnot (fun e he => by cases he), rfl,
      rfl, fun e he => by cases he⟩
  | cons d boxes =>
    obtain ⟨p, node⟩ := d
    obtain ⟨rfl, hp, hrest⟩ := hl
    have hlist : BoxList nodes (some p) ((p, node) :: boxes) := ⟨rfl, hp, hrest⟩
    have hfirst : insertsFirst nodes new (some p) =
        ok (decide (node.boxName.strcmp new.boxName ≠ .lt)) := by
      simp [insertsFirst, Heap.load_ok hp]
    by_cases hlt : node.boxName.strcmp new.boxName = .lt
    · rw [decide_eq_false (by simpa using hlt)] at hfirst
      obtain ⟨l, q, last, r, hsplit, hloop, hbefore, hbehind⟩ :=
        insertPlace_ends hlist hs hlt (Nat.lt_succ_self boxes.length)
      obtain ⟨l', ⟨q', last'⟩, r', hsplit', hq', hlt'⟩ := insertPlace_lt hlist hlt hloop
      obtain rfl : q = q' := Option.some.inj hq'
      -- both say where the loop stops
      have hq : (q, last') = (q, last) :=
        box_unique hlist (by rw [hsplit']; simp) (by rw [hsplit]; simp) rfl
      obtain rfl : l = l' := split_unique hlist hsplit (hq ▸ hsplit')
      rw [hsplit] at hlist hs hnot ⊢
      refine ⟨_, _, _, l ++ [(q, last)], r, ?_, inserted_behind hlist hs hnot hbefore hbehind,
        by simp, by simp, hq ▸ hlt'⟩
      have hlen : (l ++ (q, last) :: r).length = boxes.length + 1 := by rw [← hsplit]; rfl
      have hmem := chain_mem hlist (show (q, last) ∈ l ++ (q, last) :: r by simp)
      have hmem' : Function.update nodes newBox (some { new with next := last.next }) q =
          some last :=
        (Function.update_of_ne (hnot (q, last) (by simp)) _ _).trans hmem
      simp only [insertionSort, hload, hfirst, hlen, hloop, Heap.load_ok hmem, Heap.store_ok hnew,
        Heap.load_ok hmem', Heap.store_ok hmem', lift_eq, Bounded.ok_bind, Bounded.pure_eq,
        Bool.false_eq_true, if_false]
    · rw [decide_eq_true hlt] at hfirst
      exact ⟨_, _, _, [], _, hahead hfirst, inserted_first hlist hs hnot
        (sorted_bound hs (BoxName.le_of_not_lt hlt)), rfl, rfl, fun e he => by cases he⟩

/-- Before and after the insertion the same addresses are in use. -/
theorem Inserted.used {nodes' : Heap BoxNode} {first' : Option Nat} {boxes' : List (Nat × BoxNode)}
    (h : Inserted nodes boxes newBox new nodes' first' boxes') (hl : BoxList nodes first boxes)
    (hnew : nodes newBox = some new) (p : Nat) : nodes' p ≠ none ↔ nodes p ≠ none := by
  have haddr := h.perm.map Prod.fst
  rw [addresses_unlinked, List.map_cons, addresses_unlinked] at haddr
  by_cases hp : p ∈ newBox :: boxes.map Prod.fst
  · obtain ⟨d, hd, rfl⟩ := List.mem_map.mp (haddr.mem_iff.mpr hp)
    have hd' : nodes' d.1 ≠ none := by rw [chain_mem h.list hd]; exact Option.some_ne_none _
    have hold : nodes d.1 ≠ none := by
      rcases List.mem_cons.mp hp with hp | hp
      · rw [hp, hnew]
        exact Option.some_ne_none _
      · obtain ⟨e, he, heq⟩ := List.mem_map.mp hp
        rw [← heq, chain_mem hl he]
        exact Option.some_ne_none _
    exact ⟨fun _ => hold, fun _ => hd'⟩
  · rw [List.mem_cons, not_or] at hp
    rw [h.frame p hp.1 fun e he heq => hp.2 (List.mem_map.mpr ⟨e, he, heq⟩)]

end

/-! ## Removals -/

section
variable {nodes : Heap BoxNode} {first : Option Nat} {l r : List (Nat × BoxNode)}
  {m : Region UInt8} {a : Nat} {name : CStr} {q : Nat} {next : BoxNode}

/-- The first or the second box goes, whatever the names behind it. -/
theorem removeBox_takes (hm : HasString m a name) (hl : BoxList nodes first (l ++ (q, next) :: r))
    (hlen : l.length ≤ 1) (hnot : ∀ e ∈ l, isNamed name e = false)
    (hq : isNamed name (q, next) = true) : ∃ nodes' first' l',
    removeBox 1 nodes (some first) m a = .done (ok (true, nodes', some first')) ∧
      BoxList nodes' first' (l' ++ r) ∧ unlinkedBoxes l' = unlinkedBoxes l ∧
      ∀ p, nodes' p ≠ none ↔ nodes p ≠ none := by
  cases l with
  | nil => exact ⟨nodes, next.next, [], removeBox_first hm hl hq 1, hl.2.2, rfl, fun _ => Iff.rfl⟩
  | cons d l =>
    obtain ⟨p, node⟩ := d
    obtain rfl : l = [] := List.length_eq_zero_iff.mp (by simpa using hlen)
    have hloop := removeBox_loop hm hl (hnot _ (List.mem_cons_self ..)) 1
    have hnodup := chain_nodup hl
    obtain ⟨rfl, hnode, hnext, hbox, hrest⟩ := hl
    have hstep : removeStep nodes m a (some p) =
        ok (.inr (true, Function.update nodes p (some { node with next := next.next }))) := by
      simp [removeStep, Heap.load_ok hnode, hnext, Heap.load_ok hbox, strcmpEq_named hm q, hq,
        Heap.store_ok hnode]
    have hdone : removeBox 1 nodes (some (some p)) m a = .done (ok
        (true, Function.update nodes p (some { node with next := next.next }), some (some p))) := by
      rw [hloop, loop_leave hstep]
      rfl
    refine ⟨_, _, [(p, { node with next := next.next })], hdone, ?_, rfl, fun p' => ?_⟩
    · refine ⟨rfl, Function.update_self _ _ _, chain_congr hrest (fun e he => ?_)⟩
      apply Function.update_of_ne
      intro h
      rw [List.cons_append, List.map_cons, List.nodup_cons] at hnodup
      exact hnodup.1 (List.mem_map.mpr ⟨e, List.mem_cons_of_mem _ he, h⟩)
    · by_cases hp : p' = p
      · rw [hp, Function.update_self, hnode]
        simp
      · rw [Function.update_of_ne hp]

end

/-! ## The list has the boxes of the stacks -/

structure BoxStore.Holds (s : BoxStore) (S : BoxStacks) (first : Option Nat)
    (boxes : List (Nat × BoxNode)) : Prop where
  head : s.head = some first
  list : BoxList s.nodes first boxes
  sorted : Sorted boxes
  stack : ∀ name, S.boxes name = stackOf name boxes
  used : ∀ p, p ∈ S.used ↔ s.nodes p ≠ none

def BoxStore.Refines (s : BoxStore) (S : BoxStacks) : Prop := ∃ first boxes, s.Holds S first boxes

namespace BoxStore

section
variable {s s' : BoxStore} {S S' : BoxStacks} {first : Option Nat} {boxes : List (Nat × BoxNode)}
  {c : BoxCall} {r : BoxAnswer}

theorem exec_insert (h : s.Holds S first boxes) {p : Nat} (hp : p ∉ S.used) (name : BoxName)
    (last : UInt8) (boxSize nPublishers nSubscribers : UInt64) : ∃ fuel s',
    s.exec fuel (.insert (some p) name.str last boxSize nPublishers nSubscribers) =
        .done (ok (.inserted, s')) ∧
      s'.Refines
        { boxes := Function.update S.boxes name
            ((p, ⟨name, last, boxSize, nPublishers, nSubscribers, none⟩) :: S.boxes name)
          used := insert p S.used } := by
  have hfree : s.nodes p = none := by
    by_contra hne
    exact hp ((h.used p).mpr hne)
  have hnot : ∀ e ∈ boxes, e.1 ≠ p := by
    rintro e he rfl
    rw [chain_mem h.list he] at hfree
    cases hfree
  let new : BoxNode := ⟨name, last, boxSize, nPublishers, nSubscribers, none⟩
  let nodes := Function.update s.nodes p (some new)
  have hl : BoxList nodes first boxes :=
    chain_congr h.list fun e he => Function.update_of_ne (hnot e he) _ _
  have hnew : nodes p = some new := Function.update_self _ _ _
  have hmalloc : newBoxB s.nodes (some p) name.str last boxSize nPublishers nSubscribers =
      ok (p, nodes) := dif_pos name.fits
  obtain ⟨nodes', first', boxes', l, r, hdone, hins, rfl, hsplit, hlt⟩ :=
    insertionSort_before hl h.sorted hnew hnot
  refine ⟨(l ++ r).length, ⟨nodes', some first'⟩, ?_, first', boxes', rfl, hins.list, hins.sorted,
    fun n => ?_, fun q => ?_⟩
  · simp only [exec, hmalloc, h.head, hdone, lift_eq, Bounded.ok_bind, Bounded.pure_eq]
  · have hboxes : stackOf n boxes' = stackOf n (l ++ (p, new) :: r) := by
      apply stackOf_congr
      rw [hsplit, unlinkedBoxes_append, unlinkedBoxes_cons]
    show Function.update S.boxes name ((p, new) :: S.boxes name) n = _
    rw [hboxes, stackOf_append]
    by_cases hn : n = name
    · have hnil : stackOf n l = [] := by
        apply stackOf_eq_nil
        intro e he heq
        have hself := hlt e he
        rw [heq, hn] at hself
        exact absurd (strcmp_lt_iff.mp hself) (List.lt_irrefl _)
      rw [hnil, stackOf_cons_self hn.symm, hn, Function.update_self, h.stack, stackOf_append,
        ← hn, hnil]
      rfl
    · rw [stackOf_cons_ne (Ne.symm hn), ← stackOf_append, Function.update_of_ne hn, h.stack]
  · rw [hins.used hl hnew, Set.mem_insert_iff]
    by_cases hq : q = p
    · simp [hq, hnew]
    · rw [show nodes q = s.nodes q from Function.update_of_ne hq _ _, ← h.used q]
      simp [hq]

theorem exec_find (h : s.Holds S first boxes) (boxName : NameArg) : ∃ fuel r,
    s.exec fuel (.find boxName) = .done (ok (r, s)) ∧ S.Step (.find boxName) r S := by
  have hends := (findBox_ends boxName.named h.list (boxes.length + 1)).1 (Nat.lt_succ_self _)
  have hdone : s.exec (boxes.length + 1) (.find boxName) =
      .done (ok (.found ((otherBox boxName.name boxes).map Prod.fst), s)) := by
    simp only [exec, h.head, hends, Bounded.ok_bind, Bounded.pure_eq]
  refine ⟨_, _, hdone, ?_⟩
  cases hother : otherBox boxName.name boxes with
  | none =>
    refine .findNone fun n hn => ?_
    rw [h.stack]
    apply stackOf_eq_nil
    intro e he heq
    have := List.find?_eq_none.mp hother e he
    exact this (decide_eq_true (heq ▸ hn))
  | some d =>
    obtain ⟨p, node⟩ := d
    obtain ⟨hname, l, r, rfl, hl⟩ := List.find?_eq_some_iff_append.mp hother
    have hskip : ∀ e ∈ l, e.2.boxName.str = boxName.name := by
      intro e he
      simpa using hl e he
    have hn : node.boxName.str ≠ boxName.name := of_decide_eq_true hname
    have hnil : stackOf node.boxName l = [] :=
      stackOf_eq_nil fun e he heq => hn (heq ▸ hskip e he)
    have hstack : S.boxes node.boxName =
        (p, { node with next := none }) :: stackOf node.boxName r := by
      rw [h.stack, stackOf_append, hnil, stackOf_cons_self rfl]
      rfl
    have hleast : ∀ n : BoxName, n.str ≠ boxName.name → S.boxes n ≠ [] → node.boxName.Le n := by
      intro n hn' hne
      rw [h.stack] at hne
      obtain ⟨e, he⟩ := List.exists_mem_of_ne_nil _ hne
      obtain ⟨d, hd, rfl, -⟩ := mem_stackOf.mp he
      rcases List.mem_append.mp hd with hd | hd
      · exact absurd (hskip d hd) hn'
      · rcases List.mem_cons.mp hd with rfl | hd
        · exact BoxName.le_iff.mpr (List.le_refl _)
        · exact (sorted_le h.sorted).2 d hd
    have hfind : S.Step (.find boxName) (.found (some (p, { node with next := none }).1)) S :=
      .find hn hstack hleast
    exact hfind

/-- The boxes with a smaller name than a box of the list come before it. -/
theorem before_left {l r : List (Nat × BoxNode)} {q : Nat} {node : BoxNode}
    (h : s.Holds S first (l ++ (q, node) :: r)) {e : Nat × BoxNode}
    (he : e ∈ S.Before node.boxName) : e ∈ unlinkedBoxes l := by
  obtain ⟨n, hle, hne, he⟩ := he
  rw [h.stack] at he
  obtain ⟨d, hd, rfl, rfl⟩ := mem_stackOf.mp he
  rcases List.mem_append.mp hd with hd | hd
  · exact List.mem_map.mpr ⟨d, hd, rfl⟩
  · cases hd with
    | head => exact absurd rfl hne
    | tail _ hd => exact absurd (hle.antisymm ((sorted_le h.sorted).2 d hd)) hne

/-- When a removal is permitted, its box is the first or the second one. -/
theorem few_before (h : s.Holds S first boxes) {n : BoxName} (hne : S.boxes n ≠ [])
    (hfew : (S.Before n).Subsingleton) : ∃ l q node r, boxes = l ++ (q, node) :: r ∧
      node.boxName = n ∧ l.length ≤ 1 ∧ ∀ e ∈ l, e.2.boxName ≠ n := by
  rw [h.stack] at hne
  obtain ⟨e, he⟩ := List.exists_mem_of_ne_nil _ hne
  obtain ⟨d, hd, hname, -⟩ := mem_stackOf.mp he
  have hsome : (boxes.find? fun e => decide (e.2.boxName = n)).isSome = true := by
    rw [List.find?_isSome]
    exact ⟨d, hd, decide_eq_true hname⟩
  obtain ⟨⟨q, node⟩, hfind⟩ := Option.isSome_iff_exists.mp hsome
  obtain ⟨hnode, l, r, rfl, hl⟩ := List.find?_eq_some_iff_append.mp hfind
  have hnot : ∀ e ∈ l, e.2.boxName ≠ n := by
    intro e he
    simpa using hl e he
  have hnode : node.boxName = n := of_decide_eq_true hnode
  have hbefore : ∀ e ∈ l, (e.1, { e.2 with next := none }) ∈ S.Before n := by
    intro e he
    refine ⟨e.2.boxName, ?_, hnot e he, ?_⟩
    · rw [← hnode]
      exact (sorted_le h.sorted).1 e he
    · rw [h.stack]
      exact mem_stackOf.mpr ⟨e, List.mem_append_left _ he, rfl, rfl⟩
  refine ⟨l, q, node, r, rfl, hnode, ?_, hnot⟩
  rcases l with _ | ⟨d, _ | ⟨e, l⟩⟩
  · exact Nat.zero_le 1
  · exact Nat.le_refl 1
  · have hsame := hfew (hbefore d (by simp)) (hbefore e (by simp))
    have hnodup := chain_nodup h.list
    rw [List.cons_append, List.map_cons, List.nodup_cons] at hnodup
    rw [(Prod.mk.inj hsame).1] at hnodup
    exact absurd (by simp) hnodup.1

theorem exec_remove (h : s.Holds S first boxes) {boxName : NameArg} {n : BoxName}
    {e : Nat × BoxNode} {rest : List (Nat × BoxNode)} (hn : n.str = boxName.name)
    (hstack : S.boxes n = e :: rest) (hfew : (S.Before n).Subsingleton) : ∃ fuel s',
    s.exec fuel (.remove boxName) = .done (ok (.removed true, s')) ∧
      s'.Refines { S with boxes := Function.update S.boxes n rest } := by
  obtain ⟨l, q, node, r, rfl, hname, hlen, hnot⟩ :=
    few_before h (by rw [hstack]; exact List.cons_ne_nil _ _) hfew
  have hl : ∀ e ∈ l, isNamed boxName.name e = false := fun e he =>
    decide_eq_false fun heq => hnot e he (BoxName.ext' (heq.trans hn.symm))
  have hq : isNamed boxName.name (q, node) = true := decide_eq_true (by rw [hname, hn])
  obtain ⟨nodes', first', l', hdone, hlist, hunlinked, hused⟩ :=
    removeBox_takes boxName.named h.list hlen hl hq
  have hrest : unlinkedBoxes (l' ++ r) = unlinkedBoxes (l ++ r) := by
    rw [unlinkedBoxes_append, hunlinked, unlinkedBoxes_append]
  refine ⟨1, ⟨nodes', some first'⟩, ?_, first', l' ++ r, rfl, hlist, ?_, fun n' => ?_, fun p => ?_⟩
  · simp only [exec, h.head, hdone, Bounded.ok_bind, Bounded.pure_eq]
  · refine sorted_of_unlinked (l := l ++ r) ?_ hrest
    have hsub : (l ++ r).Sublist (l ++ (q, node) :: r) :=
      (List.sublist_cons_self _ _).append_left l
    exact h.sorted.sublist (hsub.map _)
  · show Function.update S.boxes n rest n' = _
    rw [stackOf_congr hrest, stackOf_append]
    by_cases hn' : n' = n
    · have hnil : stackOf n l = [] := stackOf_eq_nil hnot
      rw [h.stack, stackOf_append, hnil, stackOf_cons_self hname] at hstack
      rw [hn', Function.update_self, hnil]
      exact (List.cons.inj hstack).2.symm
    · rw [Function.update_of_ne hn', h.stack, stackOf_append,
        stackOf_cons_ne (by rw [hname]; exact Ne.symm hn')]
  · rw [hused p]
    exact h.used p

/-- A removal that returns was permitted. -/
theorem remove_permitted (h : s.Holds S first boxes) {boxName : NameArg} {fuel : Nat}
    (hdone : s.exec fuel (.remove boxName) = .done (ok (r, s'))) :
    ∃ r' S', S.Step (.remove boxName) r' S' := by
  obtain ⟨e, he, hname⟩ : ∃ e ∈ boxes.take 2, e.2.boxName.str = boxName.name := by
    by_contra hno
    obtain ⟨x, hx, -⟩ := Bounded.bind_eq_ok.mp hdone
    rw [h.head] at hx
    exact removeBox_other boxName.named h.list
      (fun e he => decide_eq_false fun heq => hno ⟨e, he, heq⟩) fuel hx
  obtain ⟨l, r, hsplit⟩ := List.append_of_mem he
  have hlen : l.length ≤ 1 := by
    have := congrArg List.length hsplit
    have htwo := List.length_take_le 2 boxes
    simp only [List.length_append, List.length_cons] at this
    omega
  obtain ⟨q, node⟩ := e
  have hboxes : boxes = l ++ (q, node) :: (r ++ boxes.drop 2) := calc
    boxes = boxes.take 2 ++ boxes.drop 2 := (List.take_append_drop 2 boxes).symm
    _ = l ++ (q, node) :: (r ++ boxes.drop 2) := by rw [hsplit]; simp
  rw [hboxes] at h
  have hmem : (q, { node with next := none }) ∈ S.boxes node.boxName := by
    rw [h.stack]
    exact mem_stackOf.mpr ⟨(q, node), by simp, rfl, rfl⟩
  obtain ⟨d, rest, hstack⟩ := List.exists_cons_of_ne_nil (List.ne_nil_of_mem hmem)
  refine ⟨_, _, .remove hname hstack fun d hd d' hd' => ?_⟩
  have hd := before_left h hd
  have hd' := before_left h hd'
  rcases l with _ | ⟨c, _ | ⟨c', l⟩⟩
  · cases hd
  · exact (List.mem_singleton.mp hd).trans (List.mem_singleton.mp hd').symm
  · simp at hlen

end

/-! ## Runs -/

theorem exec_more (s : BoxStore) (c : BoxCall) {fuel fuel' : Nat} (h : fuel ≤ fuel') :
    More (s.exec fuel c) (s.exec fuel' c) := by
  cases c with
  | insert addr name last boxSize nPublishers nSubscribers =>
    refine .bind (.refl _) fun x => .bind ?_ fun _ => .refl _
    cases s.head with
    | none => exact .refl _
    | some first =>
      refine .bind (.refl _) fun new => .bind (.refl _) fun b => ?_
      cases b with
      | true => exact .refl _
      | false => exact .bind (.loop _ h first) fun _ => .refl _
  | find boxName =>
    refine .bind ?_ fun _ => .refl _
    cases s.head with
    | none => exact .refl _
    | some first => exact .loop _ h first
  | remove boxName =>
    refine .bind ?_ fun _ => .refl _
    cases s.head with
    | none => exact .refl _
    | some first =>
      refine .bind (.refl _) fun node => .bind (.refl _) fun b => ?_
      cases b with
      | true => exact .refl _
      | false => exact .bind (.loop _ h first) fun _ => .refl _

section
variable {s s₁ s₂ : BoxStore} {S S' : BoxStacks} {c : BoxCall} {r r₁ r₂ : BoxAnswer}

theorem Step.unique (h₁ : s.Step c r₁ s₁) (h₂ : s.Step c r₂ s₂) : r₁ = r₂ ∧ s₁ = s₂ := by
  obtain ⟨-, m, h₁⟩ := h₁
  obtain ⟨-, n, h₂⟩ := h₂
  have hsame := More.unique (f := fun fuel => s.exec fuel c) (fun _ _ h => s.exec_more c h) h₁ h₂
  cases hsame
  exact ⟨rfl, rfl⟩

/-- Every call on the stacks is one on the list. -/
theorem step_of_stacks (h : s.Refines S) (hS : S.Step c r S') :
    ∃ s', s.Step c r s' ∧ s'.Refines S' := by
  obtain ⟨first, boxes, h⟩ := h
  cases hS with
  | @insert p name last boxSize nPublishers nSubscribers hp =>
    obtain ⟨fuel, s', hdone, hs'⟩ := exec_insert h hp name last boxSize nPublishers nSubscribers
    refine ⟨s', ⟨?_, fuel, hdone⟩, hs'⟩
    show s.nodes p = none
    by_contra hne
    exact hp ((h.used p).mpr hne)
  | @findNone boxName hnone =>
    obtain ⟨fuel, r, hdone, hr⟩ := exec_find h boxName
    obtain ⟨rfl, -⟩ := hr.find_unique (.findNone hnone)
    exact ⟨s, ⟨trivial, fuel, hdone⟩, first, boxes, h⟩
  | @find boxName n e rest hn hstack hleast =>
    obtain ⟨fuel, r, hdone, hr⟩ := exec_find h boxName
    obtain ⟨rfl, -⟩ := hr.find_unique (.find hn hstack hleast)
    exact ⟨s, ⟨trivial, fuel, hdone⟩, first, boxes, h⟩
  | remove hn hstack hfew =>
    obtain ⟨fuel, s', hdone, hs'⟩ := exec_remove h hn hstack hfew
    exact ⟨s', ⟨trivial, fuel, hdone⟩, hs'⟩

/-- A call on the list that returns has an answer on the stacks. -/
theorem step_permitted (h : s.Refines S) (hs : s.Step c r s₁) : ∃ r' S', S.Step c r' S' := by
  obtain ⟨first, boxes, h⟩ := h
  obtain ⟨hfresh, fuel, hdone⟩ := hs
  cases c with
  | insert addr name last boxSize nPublishers nSubscribers =>
    obtain ⟨x, hmalloc, -⟩ := Bounded.bind_eq_ok.mp hdone
    cases addr with
    | none => cases hmalloc
    | some p =>
      by_cases fits : name.strlen < maxBoxName
      · have hp : p ∉ S.used := fun hp => (h.used p).mp hp hfresh
        let boxName : BoxName := ⟨name, fits⟩
        have hinsert : S.Step
            (.insert (some p) boxName.str last boxSize nPublishers nSubscribers) .inserted _ :=
          .insert last boxSize nPublishers nSubscribers hp
        exact ⟨_, _, hinsert⟩
      · rw [newBoxB, dif_neg fits] at hmalloc
        cases hmalloc
  | find boxName =>
    obtain ⟨-, r', -, hr'⟩ := exec_find h boxName
    exact ⟨r', S, hr'⟩
  | remove boxName => exact remove_permitted h hdone

theorem refines_init (nodes : Heap BoxNode) :
    Refines ⟨nodes, some none⟩ (.init {p | nodes p ≠ none}) :=
  ⟨none, [], rfl, rfl, List.Pairwise.nil, fun _ => rfl, fun _ => Iff.rfl⟩

end

/-- From an empty list, on whatever heap, the calls that return and their answers are those of the
stacks, in any sequence: `insertion_sort` and `find_box` always return, and `remove_box` just when
its stack is not empty and at most one box has a smaller name. -/
theorem boxStore_traces (nodes : Heap BoxNode) (cs : List BoxCall) (rs : List BoxAnswer) :
    (∀ s, Trace BoxStore.Step ⟨nodes, some none⟩ cs rs s →
      ∃ S, Trace BoxStacks.Step (.init {p | nodes p ≠ none}) cs rs S ∧ s.Refines S) ∧
    ∀ S, Trace BoxStacks.Step (.init {p | nodes p ≠ none}) cs rs S →
      ∃ s, Trace BoxStore.Step ⟨nodes, some none⟩ cs rs s ∧ s.Refines S := by
  have hlist : Simulates BoxStore.Step BoxStacks.Step Refines := by
    intro s S c r s' h hs
    obtain ⟨r', S', hS⟩ := step_permitted h hs
    obtain ⟨s'', hs'', h'⟩ := step_of_stacks h hS
    obtain ⟨rfl, rfl⟩ := hs.unique hs''
    exact ⟨S', hS, h'⟩
  have hstacks : Simulates BoxStacks.Step BoxStore.Step fun S s => s.Refines S :=
    fun _ _ _ _ _ h hS => step_of_stacks h hS
  exact ⟨fun _ h => trace_simulates hlist (refines_init nodes) h,
    fun _ h => trace_simulates hstacks (refines_init nodes) h⟩

end BoxStore

end Mbroker
