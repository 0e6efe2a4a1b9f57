import Mathlib.Data.List.Nodup
import Mathlib.Data.List.Perm.Subperm
import Mathlib.Data.List.TakeWhile
import KvEngine.Foundations.Lane
import KvEngine.Memtable.SkipList

/-!
# The skip list is a sorted map

`Shape s order` says that the arena holds a well-formed skip list whose nodes,
in key order, are at the addresses `order`: lane `i` links the nodes whose tower
is higher than `i`.  Every operation keeps a shape and acts on the entries as the
operation of a sorted map does.
-/

namespace KvEngine

open Foundations

namespace SkipList

/-! ## Reading the arena -/

/-- The pointer of the node at `p` in lane `level`. -/
def pointer (s : SkipList) (level p : Nat) : Option (Option Nat) :=
  s.nodes[p]?.bind (fun n => n.next[level]?)

/-- The key of the node at `p`. -/
def keyOf (s : SkipList) (p : Nat) : Bytes := (s.nodes[p]?.map Node.key).getD []

/-- The value of the node at `p`. -/
def valueOf (s : SkipList) (p : Nat) : Bytes := (s.nodes[p]?.map Node.value).getD []

/-- The height of the tower at `p`. -/
def height (s : SkipList) (p : Nat) : Nat := (s.nodes[p]?.map (fun n => n.next.length)).getD 0

/-- The entries of the nodes at the given addresses. -/
def entriesOf (s : SkipList) (order : List Nat) : List (Bytes × Bytes) :=
  order.map (fun p => (s.keyOf p, s.valueOf p))

theorem nextAt_eq (s : SkipList) (p level : Nat) :
    s.nextAt p level = orPanic (s.pointer level p) := by
  unfold nextAt node pointer
  cases s.nodes[p]? with
  | none => rfl
  | some n => rfl

theorem nextAt_of_pointer {s : SkipList} {p level : Nat} {target : Option Nat}
    (points : s.pointer level p = some target) : s.nextAt p level = .ok target := by
  rw [nextAt_eq, points, orPanic_some]

/-- The pointers of a node are those below its height. -/
theorem pointer_isSome {s : SkipList} {level p : Nat} :
    (s.pointer level p).isSome ↔ level < s.height p := by
  unfold pointer height
  cases s.nodes[p]? with
  | none => simp
  | some n => simp

theorem node_of_lt {s : SkipList} {p : Nat} (inside : p < s.nodes.length) :
    ∃ n, s.node p = .ok n ∧ s.nodes[p]? = some n ∧ n.key = s.keyOf p ∧ n.value = s.valueOf p ∧
      n.next.length = s.height p := by
  refine ⟨s.nodes[p], ?_, List.getElem?_eq_getElem inside, ?_, ?_, ?_⟩ <;>
    simp [node, keyOf, valueOf, height, inside]

/-! ## Shapes -/

/-- A well-formed skip list whose nodes, in key order, are at `order`. -/
structure Shape (s : SkipList) (order : List Nat) : Prop where
  lanes : 0 < s.maxLevel
  head : s.height head = s.maxLevel
  inside : ∀ p ∈ order, 0 < p ∧ p < s.nodes.length
  towers : ∀ p ∈ order, 0 < s.height p ∧ s.height p ≤ s.maxLevel
  ascending : order.Pairwise (fun p q => s.keyOf p < s.keyOf q)
  linked : ∀ level, level < s.maxLevel →
    Lane (s.pointer level) SkipList.head (order.filter (fun p => level < s.height p))
  sizeEmpty : order = [] → s.size = selfSize
  sizeNonempty : order ≠ [] → selfSize < s.size

namespace Shape

variable {s : SkipList} {order : List Nat} {key : Bytes}

theorem nodup (shape : Shape s order) : (SkipList.head :: order).Nodup := by
  refine List.nodup_cons.mpr ⟨fun member => ?_, ?_⟩
  · exact absurd (shape.inside _ member).1 (lt_irrefl _)
  · exact shape.ascending.imp fun less equal => by simp [equal] at less

theorem nonempty (shape : Shape s order) : 0 < s.nodes.length := by
  by_contra empty
  have lanes := shape.lanes
  have height := shape.head
  have none : s.nodes[SkipList.head]? = none := List.getElem?_eq_none (by omega)
  simp only [SkipList.height, none] at height
  simp at height
  omega

/-- There are fewer entries than nodes, so a walk never runs out of fuel. -/
theorem length_lt (shape : Shape s order) : order.length < s.nodes.length := by
  have subset : SkipList.head :: order ⊆ List.range s.nodes.length := by
    intro p hp
    rcases List.mem_cons.mp hp with rfl | member
    · exact List.mem_range.mpr shape.nonempty
    · exact List.mem_range.mpr (shape.inside p member).2
  have length := (shape.nodup.subperm subset).length_le
  rw [List.length_cons, List.length_range] at length
  exact length

/-- Every node is on the bottom lane. -/
theorem bottom (shape : Shape s order) : Lane (s.pointer 0) SkipList.head order := by
  have all : order.filter (fun p => 0 < s.height p) = order :=
    List.filter_eq_self.mpr fun p hp => by simpa using (shape.towers p hp).1
  simpa [all] using shape.linked 0 shape.lanes

theorem ascendingKeys (shape : Shape s order) : AscendingKeys (s.entriesOf order) :=
  List.pairwise_map.mpr shape.ascending

end Shape

/-! ## Searching

`below` and `above` are the addresses of the keys below the target and of the
others. -/

/-- The last node of lane `level` with a key below the target. -/
def predecessor (s : SkipList) (below : List Nat) (level : Nat) : Nat :=
  (head :: below.filter (fun p => level < s.height p)).getLast (List.cons_ne_nil _ _)

/-- Every ascending order splits at a key. -/
theorem exists_split {s : SkipList} {order : List Nat}
    (ascending : order.Pairwise (fun p q => s.keyOf p < s.keyOf q)) (key : Bytes) :
    ∃ below above, order = below ++ above ∧ (∀ p ∈ below, s.keyOf p < key) ∧
      (∀ p ∈ above, key ≤ s.keyOf p) := by
  induction order with
  | nil => exact ⟨[], [], rfl, by simp, by simp⟩
  | cons p order inductionHypothesis =>
      obtain ⟨lower, ascendingRest⟩ := List.pairwise_cons.mp ascending
      by_cases less : s.keyOf p < key
      · obtain ⟨below, above, rfl, hbelow, habove⟩ := inductionHypothesis ascendingRest
        refine ⟨p :: below, above, rfl, ?_, habove⟩
        simpa [less] using hbelow
      · have notLess : key ≤ s.keyOf p := not_lt.mp less
        refine ⟨[], p :: order, rfl, by simp, ?_⟩
        intro q hq
        rcases List.mem_cons.mp hq with rfl | later
        · exact notLess
        · exact notLess.trans (lower q later).le

/-- A walk along a lane stops behind the last key below the target. -/
theorem walk_eq {s : SkipList} {level : Nat} {key : Bytes} {before after : List Nat} {p : Nat}
    {fuel : Nat} (lane : Lane (s.pointer level) p (before ++ after))
    (insideAll : ∀ q ∈ before ++ after, q < s.nodes.length)
    (smaller : ∀ q ∈ before, s.keyOf q < key) (larger : ∀ q ∈ after, key ≤ s.keyOf q)
    (enough : before.length < fuel) :
    s.walk level key fuel p = .ok ((p :: before).getLast (List.cons_ne_nil _ _)) := by
  induction before generalizing p fuel with
  | nil =>
      obtain ⟨fuel, rfl⟩ : ∃ f, fuel = f + 1 := ⟨fuel - 1, by simp at enough; omega⟩
      simp only [List.nil_append] at lane insideAll
      simp only [walk, nextAt_of_pointer lane.first, Result.ok_bind, List.getLast_singleton]
      cases after with
      | nil => rfl
      | cons q after =>
          obtain ⟨n, atNode, -, sameKey, -, -⟩ := node_of_lt (insideAll q List.mem_cons_self)
          have notLess : ¬ n.key < key := by
            rw [sameKey]
            exact not_lt.mpr (larger q List.mem_cons_self)
          simp only [List.head?_cons, atNode, Result.ok_bind, if_neg notLess]
  | cons q before inductionHypothesis =>
      obtain ⟨fuel, rfl⟩ : ∃ f, fuel = f + 1 := ⟨fuel - 1, by simp at enough; omega⟩
      obtain ⟨n, atNode, -, sameKey, -, -⟩ :=
        node_of_lt (insideAll q (List.mem_append_left _ List.mem_cons_self))
      have less : n.key < key := sameKey ▸ smaller q List.mem_cons_self
      simp only [walk, nextAt_of_pointer lane.1, Result.ok_bind, atNode, if_pos less]
      rw [inductionHypothesis lane.2
        (fun r hr => insideAll r (List.mem_cons_of_mem _ hr))
        (fun r hr => smaller r (List.mem_cons_of_mem _ hr))
        (by simpa using enough)]
      rw [List.getLast_cons (List.cons_ne_nil _ _)]

section Search

variable {s : SkipList} {below above : List Nat} {key : Bytes}

/-- The search path ends, on each lane, at the predecessor of the target. -/
theorem descend_eq (shape : Shape s (below ++ above)) (smaller : ∀ p ∈ below, s.keyOf p < key)
    (larger : ∀ p ∈ above, key ≤ s.keyOf p) (n current : Nat) (levels : n ≤ s.maxLevel)
    (start : current ∈ head :: below.filter (fun p => n - 1 < s.height p)) :
    s.descend key n current =
      .ok (if n = 0 then current else s.predecessor below 0,
        (List.range n).map (s.predecessor below)) := by
  induction n generalizing current with
  | zero => rfl
  | succ n inductionHypothesis =>
      obtain ⟨before, after, split⟩ := List.append_of_mem start
      simp only [Nat.add_sub_cancel] at split
      have lane := shape.linked n (by omega)
      rw [List.filter_append] at lane
      have behind := lane.behind (q := current) before
        (after ++ above.filter (fun p => n < s.height p)) (by
          rw [← List.cons_append, split, List.append_assoc, List.cons_append])
      have afterBelow : ∀ p ∈ after, p ∈ below := by
        intro p hp
        have tail := congrArg List.tail split
        refine List.mem_of_mem_filter (p := fun p => n < s.height p) ?_
        cases before with
        | nil =>
            simp only [List.nil_append, List.tail_cons] at tail
            exact tail ▸ hp
        | cons q before =>
            simp only [List.cons_append, List.tail_cons] at tail
            exact tail ▸ List.mem_append_right _ (List.mem_cons_of_mem _ hp)
      have walked : s.walk n key s.nodes.length current = .ok (s.predecessor below n) := by
        rw [walk_eq behind]
        · congr 1
          unfold predecessor
          simp only [split]
          rw [List.getLast_append_of_ne_nil _ (List.cons_ne_nil _ _)]
        · intro q hq
          rcases List.mem_append.mp hq with inBelow | inAbove
          · exact (shape.inside q (List.mem_append_left _ (afterBelow q inBelow))).2
          · exact (shape.inside q (List.mem_append_right _ (List.mem_of_mem_filter inAbove))).2
        · exact fun q hq => smaller q (afterBelow q hq)
        · exact fun q hq => larger q (List.mem_of_mem_filter hq)
        · have parts := congrArg List.length split
          have filtered := List.length_filter_le (fun p => decide (n < s.height p)) below
          have total := shape.length_lt
          simp only [List.length_cons, List.length_append] at parts total
          omega
      have deeper : s.predecessor below n ∈ head :: below.filter (fun p => n - 1 < s.height p) := by
        have last : s.predecessor below n ∈ head :: below.filter (fun p => n < s.height p) :=
          List.getLast_mem _
        rcases List.mem_cons.mp last with isHead | kept
        · exact isHead ▸ List.mem_cons_self
        · obtain ⟨member, tall⟩ := List.mem_filter.mp kept
          refine List.mem_cons_of_mem _ (List.mem_filter.mpr ⟨member, ?_⟩)
          simp only [decide_eq_true_eq] at tall ⊢
          omega
      simp only [descend, walked, Result.ok_bind, inductionHypothesis _ (by omega) deeper]
      rw [List.range_succ, List.map_append]
      by_cases zero : n = 0
      · simp [zero]
      · simp [zero]

/-- Behind a predecessor its lane goes on with the keys that are not below. -/
theorem lane_predecessor (shape : Shape s (below ++ above)) {level : Nat}
    (levels : level < s.maxLevel) :
    Lane (s.pointer level) (s.predecessor below level)
      (above.filter (fun p => level < s.height p)) := by
  refine (shape.linked level levels).behind
    (head :: below.filter (fun p => level < s.height p)).dropLast _ ?_
  unfold predecessor
  rw [List.filter_append, ← List.cons_append, List.append_cons, List.dropLast_concat_getLast]

/-- On the bottom lane these are all of them. -/
theorem lane_above (shape : Shape s (below ++ above)) :
    Lane (s.pointer 0) (s.predecessor below 0) above := by
  have all : above.filter (fun p => 0 < s.height p) = above :=
    List.filter_eq_self.mpr fun p hp => by
      simpa using (shape.towers p (List.mem_append_right _ hp)).1
  simpa [all] using lane_predecessor shape shape.lanes

/-- A search ends in front of the first key that is not below the target. -/
theorem descend_head (shape : Shape s (below ++ above)) (smaller : ∀ p ∈ below, s.keyOf p < key)
    (larger : ∀ p ∈ above, key ≤ s.keyOf p) :
    s.descend key s.maxLevel head =
      .ok (s.predecessor below 0, (List.range s.maxLevel).map (s.predecessor below)) := by
  rw [descend_eq shape smaller larger _ _ le_rfl List.mem_cons_self, if_neg shape.lanes.ne']

theorem nextAt_predecessor (shape : Shape s (below ++ above)) :
    s.nextAt (s.predecessor below 0) 0 = .ok above.head? :=
  nextAt_of_pointer (lane_above shape).first

theorem holdsKey_eq {p : Nat} (inside : p < s.nodes.length) :
    s.holdsKey (some p) key = .ok (if s.keyOf p = key then some p else none) := by
  obtain ⟨n, atNode, -, sameKey, -, -⟩ := node_of_lt inside
  simp only [holdsKey, atNode, Result.ok_bind, sameKey]

/-- The entries from an address on. -/
theorem collect_eq {more : Bytes → Bool} {p : Nat} {lane : List Nat} {fuel : Nat}
    (lanes : Lane (s.pointer 0) p lane) (inside : ∀ q ∈ lane, q < s.nodes.length)
    (enough : lane.length ≤ fuel) :
    s.collect more fuel lane.head? =
      .ok (s.entriesOf (lane.takeWhile (fun q => more (s.keyOf q)))) := by
  induction lane generalizing p fuel with
  | nil => cases fuel <;> rfl
  | cons q lane inductionHypothesis =>
      obtain ⟨fuel, rfl⟩ : ∃ f, fuel = f + 1 := ⟨fuel - 1, by simp at enough; omega⟩
      obtain ⟨n, atNode, -, sameKey, sameValue, -⟩ := node_of_lt (inside q List.mem_cons_self)
      simp only [List.head?_cons, collect, atNode, Result.ok_bind, sameKey, sameValue]
      cases accepted : more (s.keyOf q) with
      | false => simp [accepted, entriesOf]
      | true =>
          rw [nextAt_of_pointer lanes.2.first, Result.ok_bind,
            inductionHypothesis lanes.2 (fun r hr => inside r (List.mem_cons_of_mem _ hr))
              (by simpa using enough)]
          simp [accepted, entriesOf]

end Search

/-! ## What the reads return -/

section Reads

variable {s : SkipList} {order : List Nat}

theorem entriesOf_append (s : SkipList) (l₁ l₂ : List Nat) :
    s.entriesOf (l₁ ++ l₂) = s.entriesOf l₁ ++ s.entriesOf l₂ :=
  List.map_append

@[simp] theorem entriesOf_cons (s : SkipList) (p : Nat) (l : List Nat) :
    s.entriesOf (p :: l) = (s.keyOf p, s.valueOf p) :: s.entriesOf l := rfl

theorem mem_entriesOf {b : Bytes × Bytes} {l : List Nat} :
    b ∈ s.entriesOf l ↔ ∃ p ∈ l, (s.keyOf p, s.valueOf p) = b :=
  List.mem_map

/-- `get` looks the key up among the entries. -/
theorem get_eq (shape : Shape s order) (key : Bytes) :
    s.get key = .ok (lookupList key (s.entriesOf order)) := by
  obtain ⟨below, above, rfl, smaller, larger⟩ := exists_split shape.ascending key
  have absentBelow : lookupList key (s.entriesOf below) = none := by
    rw [lookupList_eq_none]
    intro b hb
    obtain ⟨p, member, rfl⟩ := mem_entriesOf.mp hb
    exact (smaller p member).ne
  rw [entriesOf_append, lookupList_append, absentBelow, Option.none_or]
  simp only [get, descend_head shape smaller larger, Result.ok_bind, nextAt_predecessor shape]
  cases above with
  | nil => rfl
  | cons p above =>
      have inside := (shape.inside p (List.mem_append_right _ List.mem_cons_self)).2
      obtain ⟨n, atNode, -, -, sameValue, -⟩ := node_of_lt inside
      rw [List.head?_cons, holdsKey_eq inside, Result.ok_bind]
      by_cases same : s.keyOf p = key
      · simp only [if_pos same, atNode, Result.ok_bind, sameValue]
        rw [entriesOf, List.map_cons, lookupList_cons, if_pos same.symm]
      · have ascending := (List.pairwise_append.mp shape.ascending).2.1
        have less : key < s.keyOf p :=
          lt_of_le_of_ne (larger p List.mem_cons_self) (Ne.symm same)
        rw [if_neg same, lookupList_eq_none_of_lt]
        intro b hb
        obtain ⟨q, member, rfl⟩ := mem_entriesOf.mp hb
        rcases List.mem_cons.mp member with rfl | later
        · exact less
        · exact less.trans ((List.pairwise_cons.mp ascending).1 q later)

/-- `iter` returns all entries. -/
theorem iter_eq (shape : Shape s order) : s.iter = .ok (s.entriesOf order) := by
  have all : order.takeWhile (fun _ => true) = order :=
    List.takeWhile_eq_self_iff.mpr fun _ _ => rfl
  rw [iter, nextAt_of_pointer shape.bottom.first, Result.ok_bind,
    collect_eq shape.bottom (fun q hq => (shape.inside q hq).2) shape.length_lt.le, all]

/-- On ascending keys the entries below a bound come first. -/
theorem takeWhile_eq_filter {l : List Nat} (ascending : l.Pairwise (fun p q => s.keyOf p < s.keyOf q))
    (stop : Bytes) :
    l.takeWhile (fun p => s.keyOf p < stop) = l.filter (fun p => s.keyOf p < stop) := by
  induction l with
  | nil => rfl
  | cons p l inductionHypothesis =>
      obtain ⟨lower, ascendingRest⟩ := List.pairwise_cons.mp ascending
      by_cases less : s.keyOf p < stop
      · simp [less, inductionHypothesis ascendingRest]
      · have none : l.filter (fun q => s.keyOf q < stop) = [] := by
          rw [List.filter_eq_nil_iff]
          intro q hq
          simpa using (not_lt.mp less).trans (lower q hq).le
        simp [less, none]

/-- `scan` returns the entries of the range. -/
theorem scan_eq (shape : Shape s order) (start stop : Bytes) :
    s.scan start stop =
      .ok ((s.entriesOf order).filter (fun b => start ≤ b.1 ∧ b.1 < stop)) := by
  obtain ⟨below, above, rfl, smaller, larger⟩ := exists_split shape.ascending start
  simp only [scan, descend_head shape smaller larger, Result.ok_bind, nextAt_predecessor shape]
  rw [collect_eq (lane_above shape) (fun q hq => (shape.inside q (List.mem_append_right _ hq)).2)
    ((by simp : above.length ≤ (below ++ above).length).trans shape.length_lt.le)]
  rw [takeWhile_eq_filter (List.pairwise_append.mp shape.ascending).2.1, entriesOf_append,
    List.filter_append]
  have noneBelow : (s.entriesOf below).filter (fun b => start ≤ b.1 ∧ b.1 < stop) = [] := by
    rw [List.filter_eq_nil_iff]
    intro b hb
    obtain ⟨p, member, rfl⟩ := mem_entriesOf.mp hb
    simp [smaller p member]
  rw [noneBelow, List.nil_append, entriesOf, entriesOf, List.filter_map]
  congr 2
  refine List.filter_congr fun p hp => ?_
  simp [larger p hp]

end Reads

/-! ## Writing one node -/

section Update

variable {s : SkipList}

/-- Point the node at `p` to `target` in lane `level`. -/
def redirect (s : SkipList) (p level : Nat) (target : Option Nat) : SkipList :=
  { s with nodes := s.nodes.modify p (fun n => { n with next := n.next.set level target }) }

theorem setNext_eq {p level : Nat} (target : Option Nat) (inside : level < s.height p) :
    s.setNext p level target = .ok (s.redirect p level target) := by
  have valid : p < s.nodes.length := by
    by_contra outside
    simp [height, List.getElem?_eq_none (not_lt.mp outside)] at inside
  obtain ⟨n, -, atNode, -, -, sameHeight⟩ := node_of_lt valid
  have reachable : n.next[level]? = some n.next[level] :=
    List.getElem?_eq_getElem (sameHeight ▸ inside)
  simp only [setNext, node, atNode, orPanic_some, Result.ok_bind, reachable]
  congr 1
  simp only [redirect]
  rw [List.modify_eq_set_getElem?, atNode]
  rfl

@[simp] theorem keyOf_redirect (p level : Nat) (target : Option Nat) (q : Nat) :
    (s.redirect p level target).keyOf q = s.keyOf q := by
  simp only [keyOf, redirect, List.getElem?_modify]
  cases s.nodes[q]? with
  | none => rfl
  | some n => by_cases here : p = q <;> simp [here]

@[simp] theorem valueOf_redirect (p level : Nat) (target : Option Nat) (q : Nat) :
    (s.redirect p level target).valueOf q = s.valueOf q := by
  simp only [valueOf, redirect, List.getElem?_modify]
  cases s.nodes[q]? with
  | none => rfl
  | some n => by_cases here : p = q <;> simp [here]

@[simp] theorem height_redirect (p level : Nat) (target : Option Nat) (q : Nat) :
    (s.redirect p level target).height q = s.height q := by
  simp only [height, redirect, List.getElem?_modify]
  cases s.nodes[q]? with
  | none => rfl
  | some n => by_cases here : p = q <;> simp [here]

@[simp] theorem length_redirect (p level : Nat) (target : Option Nat) :
    (s.redirect p level target).nodes.length = s.nodes.length := by
  simp [redirect]

@[simp] theorem maxLevel_redirect (p level : Nat) (target : Option Nat) :
    (s.redirect p level target).maxLevel = s.maxLevel := rfl

@[simp] theorem size_redirect (p level : Nat) (target : Option Nat) :
    (s.redirect p level target).size = s.size := rfl

theorem pointer_redirect_self {p level : Nat} (target : Option Nat) (inside : level < s.height p) :
    (s.redirect p level target).pointer level p = some target := by
  unfold height at inside
  simp only [pointer, redirect, List.getElem?_modify]
  cases atNode : s.nodes[p]? with
  | none => simp [atNode] at inside
  | some n =>
      simp only [atNode, Option.map_some, Option.getD_some] at inside
      simp [inside]

theorem pointer_redirect_of_ne {p level : Nat} (target : Option Nat) {q level' : Nat}
    (other : q ≠ p ∨ level' ≠ level) :
    (s.redirect p level target).pointer level' q = s.pointer level' q := by
  simp only [pointer, redirect, List.getElem?_modify]
  cases s.nodes[q]? with
  | none => rfl
  | some n =>
      by_cases here : p = q
      · have otherLevel : level ≠ level' := by
          rcases other with different | different
          · exact absurd here.symm different
          · exact different.symm
        simp [here, List.getElem?_set_ne otherLevel]
      · simp [here]

/-- Two lists with the same nodes up to their pointers. -/
structure SameNodes (s s' : SkipList) : Prop where
  key : ∀ p, s'.keyOf p = s.keyOf p
  value : ∀ p, s'.valueOf p = s.valueOf p
  height : ∀ p, s'.height p = s.height p
  length : s'.nodes.length = s.nodes.length
  maxLevel : s'.maxLevel = s.maxLevel
  size : s'.size = s.size

theorem SameNodes.redirect (p level : Nat) (target : Option Nat) :
    SameNodes s (s.redirect p level target) := by
  constructor <;> simp

theorem SameNodes.trans {s s' s'' : SkipList} (h₁ : SameNodes s s') (h₂ : SameNodes s' s'') :
    SameNodes s s'' where
  key p := (h₂.key p).trans (h₁.key p)
  value p := (h₂.value p).trans (h₁.value p)
  height p := (h₂.height p).trans (h₁.height p)
  length := h₂.length.trans h₁.length
  maxLevel := h₂.maxLevel.trans h₁.maxLevel
  size := h₂.size.trans h₁.size

/-- Splicing a node in behind `preds`, from lane `i` upwards, changes two pointers
of each of these lanes and no others. -/
theorem splice_eq (s : SkipList) (new i : Nat) (preds : List Nat)
    (tallNew : i + preds.length ≤ s.height new)
    (tall : ∀ j p, preds[j]? = some p → i + j < s.height p) (fresh : new ∉ preds) :
    ∃ s', splice new i preds s = .ok s' ∧ SameNodes s s' ∧
      (∀ j p, preds[j]? = some p →
        s'.pointer (i + j) new = s.pointer (i + j) p ∧
          s'.pointer (i + j) p = some (some new) ∧
          ∀ q, q ≠ new → q ≠ p → s'.pointer (i + j) q = s.pointer (i + j) q) ∧
      (∀ level, level < i ∨ i + preds.length ≤ level →
        ∀ q, s'.pointer level q = s.pointer level q) := by
  induction preds generalizing i s with
  | nil => exact ⟨s, rfl, ⟨by simp, by simp, by simp, rfl, rfl, rfl⟩, by simp, by simp⟩
  | cons pred preds inductionHypothesis =>
      obtain ⟨notPred, freshRest⟩ : new ≠ pred ∧ new ∉ preds := by simpa using fresh
      have tallPred : i < s.height pred := by simpa using tall 0 pred rfl
      have insideNew : i < s.height new := by
        simp only [List.length_cons] at tallNew
        omega
      obtain ⟨target, pointed⟩ := Option.isSome_iff_exists.mp (pointer_isSome.mpr tallPred)
      have sameNodes := (SameNodes.redirect (s := s) new i target).trans
        (SameNodes.redirect pred i (some new))
      obtain ⟨s', run, same, here, elsewhere⟩ :=
        inductionHypothesis (s := (s.redirect new i target).redirect pred i (some new)) (i + 1)
          (by
            simp only [height_redirect]
            simp only [List.length_cons] at tallNew
            omega)
          (fun j p found => by
            have := tall (j + 1) p (by simpa using found)
            simp only [height_redirect]
            omega)
          freshRest
      have untouched : ∀ level, level ≠ i → ∀ q,
          ((s.redirect new i target).redirect pred i (some new)).pointer level q =
            s.pointer level q := fun level other q => by
        rw [pointer_redirect_of_ne _ (Or.inr other), pointer_redirect_of_ne _ (Or.inr other)]
      refine ⟨s', ?_, sameNodes.trans same, fun j p found => ?_, fun level outside q => ?_⟩
      · rw [splice, nextAt_of_pointer pointed, Result.ok_bind, setNext_eq _ insideNew,
          Result.ok_bind, setNext_eq _ (by simpa using tallPred), Result.ok_bind, run]
      · cases j with
        | zero =>
            obtain rfl : pred = p := by simpa using found
            have keep : ∀ q, s'.pointer i q =
                ((s.redirect new i target).redirect pred i (some new)).pointer i q :=
              elsewhere i (Or.inl (by omega))
            simp only [Nat.add_zero, keep]
            refine ⟨?_, pointer_redirect_self _ (by simpa using tallPred), fun q notNew notHere => ?_⟩
            · rw [pointer_redirect_of_ne _ (Or.inl notPred), pointer_redirect_self _ insideNew,
                pointed]
            · rw [pointer_redirect_of_ne _ (Or.inl notHere), pointer_redirect_of_ne _ (Or.inl notNew)]
        | succ j =>
            have level : i + (j + 1) = i + 1 + j := by omega
            have later := here j p (by simpa using found)
            rw [← level] at later
            simpa only [untouched (i + (j + 1)) (by omega)] using later
      · simp only [List.length_cons] at outside
        rw [elsewhere level (by omega), untouched level (by omega)]

/-- Overwrite the value of the node at `p`. -/
def withValue (s : SkipList) (p : Nat) (value : Bytes) : SkipList :=
  { s with nodes := s.nodes.modify p (fun n => { n with value }) }

theorem setValue_eq {p : Nat} (value : Bytes) (inside : p < s.nodes.length) :
    s.setValue p value = .ok (s.withValue p value) := by
  obtain ⟨n, atNode, found, -, -, -⟩ := node_of_lt inside
  simp only [setValue, atNode, Result.ok_bind, withValue, List.modify_eq_set_getElem?, found]
  rfl

@[simp] theorem keyOf_withValue (p : Nat) (value : Bytes) (q : Nat) :
    (s.withValue p value).keyOf q = s.keyOf q := by
  simp only [keyOf, withValue, List.getElem?_modify]
  cases s.nodes[q]? with
  | none => rfl
  | some n => by_cases here : p = q <;> simp [here]

@[simp] theorem height_withValue (p : Nat) (value : Bytes) (q : Nat) :
    (s.withValue p value).height q = s.height q := by
  simp only [height, withValue, List.getElem?_modify]
  cases s.nodes[q]? with
  | none => rfl
  | some n => by_cases here : p = q <;> simp [here]

@[simp] theorem pointer_withValue (p : Nat) (value : Bytes) (level : Nat) :
    (s.withValue p value).pointer level = s.pointer level := by
  funext q
  simp only [pointer, withValue, List.getElem?_modify]
  cases s.nodes[q]? with
  | none => rfl
  | some n => by_cases here : p = q <;> simp [here]

@[simp] theorem maxLevel_withValue (p : Nat) (value : Bytes) :
    (s.withValue p value).maxLevel = s.maxLevel := rfl

theorem valueOf_withValue_self {p : Nat} (value : Bytes) (inside : p < s.nodes.length) :
    (s.withValue p value).valueOf p = value := by
  simp [valueOf, withValue, inside]

theorem valueOf_withValue_of_ne {p q : Nat} (value : Bytes) (other : q ≠ p) :
    (s.withValue p value).valueOf q = s.valueOf q := by
  simp only [valueOf, withValue, List.getElem?_modify]
  cases s.nodes[q]? with
  | none => rfl
  | some n => simp [Ne.symm other]

theorem Shape.withValue {order : List Nat} (shape : Shape s order) (p : Nat) (value : Bytes) :
    Shape (s.withValue p value) order where
  lanes := shape.lanes
  head := by simpa using shape.head
  inside q hq := by simpa [SkipList.withValue] using shape.inside q hq
  towers q hq := by simpa using shape.towers q hq
  ascending := by simpa using shape.ascending
  linked level levels := by simpa using shape.linked level levels
  sizeEmpty := shape.sizeEmpty
  sizeNonempty := shape.sizeNonempty

/-- Append a node that no lane links yet. -/
def withNode (s : SkipList) (n : Node) : SkipList := { s with nodes := s.nodes ++ [n] }

theorem getElem?_withNode (n : Node) {p : Nat} (inside : p < s.nodes.length) :
    (s.withNode n).nodes[p]? = s.nodes[p]? :=
  List.getElem?_append_left inside

theorem getElem?_withNode_new (n : Node) : (s.withNode n).nodes[s.nodes.length]? = some n := by
  simp [withNode]

theorem keyOf_withNode (n : Node) {p : Nat} (inside : p < s.nodes.length) :
    (s.withNode n).keyOf p = s.keyOf p := by
  simp [keyOf, getElem?_withNode n inside]

theorem valueOf_withNode (n : Node) {p : Nat} (inside : p < s.nodes.length) :
    (s.withNode n).valueOf p = s.valueOf p := by
  simp [valueOf, getElem?_withNode n inside]

theorem height_withNode (n : Node) {p : Nat} (inside : p < s.nodes.length) :
    (s.withNode n).height p = s.height p := by
  simp [height, getElem?_withNode n inside]

theorem pointer_withNode (n : Node) (level : Nat) {p : Nat} (inside : p < s.nodes.length) :
    (s.withNode n).pointer level p = s.pointer level p := by
  simp [pointer, getElem?_withNode n inside]

end Update

/-! ## Insertion -/

section Insert

variable {s : SkipList} {below above : List Nat} {key : Bytes}

/-- Inserting a key that is there overwrites its value. -/
theorem insert_present {p : Nat} (shape : Shape s (below ++ p :: above))
    (smaller : ∀ q ∈ below, s.keyOf q < key) (same : s.keyOf p = key) (level : Nat)
    (value : Bytes) : s.insert level key value = .ok (s.withValue p value) := by
  have ascending := (List.pairwise_append.mp shape.ascending).2.1
  have larger : ∀ q ∈ p :: above, key ≤ s.keyOf q := by
    intro q hq
    rcases List.mem_cons.mp hq with rfl | later
    · exact same.ge
    · exact same ▸ ((List.pairwise_cons.mp ascending).1 q later).le
  have inside := (shape.inside p (List.mem_append_right _ List.mem_cons_self)).2
  simp only [insert, descend_head shape smaller larger, Result.ok_bind, nextAt_predecessor shape,
    List.head?_cons, holdsKey_eq inside, if_pos same, setValue_eq value inside]

/-- Its entry is replaced in place. -/
theorem entriesOf_withValue {p : Nat} (shape : Shape s (below ++ p :: above))
    (smaller : ∀ q ∈ below, s.keyOf q < key) (same : s.keyOf p = key) (value : Bytes) :
    (s.withValue p value).entriesOf (below ++ p :: above) =
      insertList key value (s.entriesOf (below ++ p :: above)) := by
  have nodup := (List.nodup_cons.mp shape.nodup).2
  have inside := (shape.inside p (List.mem_append_right _ List.mem_cons_self)).2
  have others : ∀ q, q ≠ p →
      ((s.withValue p value).keyOf q, (s.withValue p value).valueOf q) =
        (s.keyOf q, s.valueOf q) := fun q other => by
    rw [keyOf_withValue, valueOf_withValue_of_ne value other]
  have notBelow : ∀ q ∈ below, q ≠ p := by
    rintro q hq rfl
    exact absurd same (smaller q hq).ne
  have notAbove : ∀ q ∈ above, q ≠ p := by
    rintro q hq rfl
    exact (List.nodup_cons.mp (List.nodup_append.mp nodup).2.1).1 hq
  have keptBelow : (s.withValue p value).entriesOf below = s.entriesOf below :=
    List.map_congr_left fun q hq => others q (notBelow q hq)
  have keptAbove : (s.withValue p value).entriesOf above = s.entriesOf above :=
    List.map_congr_left fun q hq => others q (notAbove q hq)
  rw [entriesOf_append, entriesOf_append, insertList_append_of_lt]
  · rw [keptBelow]
    congr 1
    rw [entriesOf_cons, keptAbove, keyOf_withValue, valueOf_withValue_self value inside,
      entriesOf_cons, insertList, same, if_neg (lt_irrefl key), if_pos rfl]
  · intro b hb
    obtain ⟨q, member, rfl⟩ := mem_entriesOf.mp hb
    exact smaller q member

/-- Every predecessor is a node of its lane. -/
theorem predecessor_valid (shape : Shape s (below ++ above)) (level : Nat)
    (levels : level < s.maxLevel) :
    s.predecessor below level < s.nodes.length ∧ level < s.height (s.predecessor below level) ∧
      s.predecessor below level ∈ head :: below.filter (fun p => level < s.height p) := by
  have member : s.predecessor below level ∈ head :: below.filter (fun p => level < s.height p) :=
    List.getLast_mem _
  refine ⟨?_, ?_, member⟩ <;> rcases List.mem_cons.mp member with isHead | kept
  · exact isHead ▸ shape.nonempty
  · exact (shape.inside _ (List.mem_append_left _ (List.mem_of_mem_filter kept))).2
  · rw [isHead, shape.head]
    exact levels
  · simpa using (List.mem_filter.mp kept).2

/-- The entry that a missing key gets. -/
def freshNode (level : Nat) (key value : Bytes) : Node :=
  { key, value, next := List.replicate (level + 1) none }

/-- What a new node adds to the size estimate. -/
def nodeCost (level : Nat) (key value : Bytes) : Nat :=
  key.length + value.length + (level + 1) * pointerSize + nodeSize + 2 * vecSize

/-- Splicing in a fresh node links it into the lanes up to its height. -/
theorem splice_fresh (shape : Shape s (below ++ above)) {level : Nat} (levels : level < s.maxLevel)
    (key value : Bytes) :
    ∃ s', splice s.nodes.length 0 ((List.range (level + 1)).map (s.predecessor below))
          (s.withNode (freshNode level key value)) = .ok s' ∧
      SameNodes (s.withNode (freshNode level key value)) s' ∧
      ∀ l, l < s.maxLevel → Lane (s'.pointer l) head
        (below.filter (fun p => l < s.height p) ++
          if l ≤ level then s.nodes.length :: above.filter (fun p => l < s.height p)
          else above.filter (fun p => l < s.height p)) := by
  have atRange : ∀ j p, ((List.range (level + 1)).map (s.predecessor below))[j]? = some p ↔
      j ≤ level ∧ s.predecessor below j = p := by
    intro j p
    rw [List.getElem?_map]
    by_cases inRange : j < level + 1
    · have here : (List.range (level + 1))[j]? = some j := List.getElem?_range inRange
      rw [here]
      simp [Nat.lt_succ_iff.mp inRange]
    · simp [List.getElem?_eq_none (by simpa using inRange : (List.range (level + 1)).length ≤ j)]
      omega
  have oldAddress : ∀ l, l < s.maxLevel →
      ∀ q ∈ head :: (below.filter (fun p => l < s.height p) ++
        above.filter (fun p => l < s.height p)), q < s.nodes.length := by
    intro l hl q hq
    rcases List.mem_cons.mp hq with rfl | member
    · exact shape.nonempty
    · rw [← List.filter_append] at member
      exact (shape.inside q (List.mem_of_mem_filter member)).2
  obtain ⟨s', run, same, linkedHere, linkedAbove⟩ :=
    splice_eq (s.withNode (freshNode level key value)) s.nodes.length 0
      ((List.range (level + 1)).map (s.predecessor below))
      (by simp [height, getElem?_withNode_new, freshNode])
      (fun j p found => by
        obtain ⟨inRange, rfl⟩ := (atRange j p).mp found
        obtain ⟨valid, tall, -⟩ := predecessor_valid shape j (by omega)
        rw [height_withNode _ valid]
        omega)
      (by
        intro member
        obtain ⟨j, inRange, equal⟩ := List.mem_map.mp member
        have valid := (predecessor_valid shape j
          (by have := List.mem_range.mp inRange; omega)).1
        omega)
  simp only [Nat.zero_add] at linkedHere linkedAbove
  refine ⟨s', run, same, fun l hl => ?_⟩
  have linked := shape.linked l hl
  rw [List.filter_append] at linked
  have old : ∀ q ∈ head :: (below.filter (fun p => l < s.height p) ++
      above.filter (fun p => l < s.height p)),
      (s.withNode (freshNode level key value)).pointer l q = s.pointer l q :=
    fun q hq => pointer_withNode _ l (oldAddress l hl q hq)
  by_cases touched : l ≤ level
  · rw [if_pos touched]
    obtain ⟨valid, -, member⟩ := predecessor_valid shape l hl
    obtain ⟨fromNew, toNew, others⟩ :=
      linkedHere l (s.predecessor below l) ((atRange _ _).mpr ⟨touched, rfl⟩)
    refine linked.splice ?_ ?_ toNew fun q hq notPred => ?_
    · rw [← List.filter_append]
      exact shape.nodup.sublist (List.filter_sublist.cons_cons _)
    · rw [fromNew, pointer_withNode _ l valid]
      exact (lane_predecessor shape hl).first
    · have notNew : q ≠ s.nodes.length := (oldAddress l hl q hq).ne
      rw [others q notNew notPred, old q hq]
  · rw [if_neg touched]
    refine linked.congr fun q hq => ?_
    have beyond : ((List.range (level + 1)).map (s.predecessor below)).length ≤ l := by
      rw [List.length_map, List.length_range]
      omega
    rw [linkedAbove l (Or.inr beyond), old q hq]

/-- How the nodes of `s'` read when a fresh node has been spliced into `s`. -/
structure Spliced (s s' : SkipList) (order : List Nat) (level : Nat) (key value : Bytes) :
    Prop where
  keyOld : ∀ q ∈ order, s'.keyOf q = s.keyOf q
  valueOld : ∀ q ∈ order, s'.valueOf q = s.valueOf q
  heightOld : ∀ q ∈ order, s'.height q = s.height q
  keyNew : s'.keyOf s.nodes.length = key
  valueNew : s'.valueOf s.nodes.length = value
  heightNew : s'.height s.nodes.length = level + 1
  headOld : s'.height head = s.height head
  length : s'.nodes.length = s.nodes.length + 1
  maxLevel : s'.maxLevel = s.maxLevel
  size : s'.size = s.size

/-- Splicing changes pointers only. -/
theorem SameNodes.spliced {s' : SkipList} {order : List Nat} {level : Nat} {value : Bytes}
    (shape : Shape s order) (same : SameNodes (s.withNode (freshNode level key value)) s') :
    Spliced s s' order level key value where
  keyOld := fun q hq => by rw [same.key, keyOf_withNode _ (shape.inside q hq).2]
  valueOld := fun q hq => by rw [same.value, valueOf_withNode _ (shape.inside q hq).2]
  heightOld := fun q hq => by rw [same.height, height_withNode _ (shape.inside q hq).2]
  keyNew := by
    rw [same.key, keyOf, getElem?_withNode_new]
    rfl
  valueNew := by
    rw [same.value, valueOf, getElem?_withNode_new]
    rfl
  heightNew := by
    rw [same.height, SkipList.height, getElem?_withNode_new]
    simp [freshNode]
  headOld := by rw [same.height, height_withNode (p := head) _ shape.nonempty]
  length := by
    rw [same.length]
    simp [withNode]
  maxLevel := same.maxLevel
  size := same.size

namespace Spliced

variable {s' : SkipList} {level : Nat} {value : Bytes}

/-- The keys still ascend. -/
theorem ascending (spliced : Spliced s s' (below ++ above) level key value)
    (shape : Shape s (below ++ above)) (smaller : ∀ q ∈ below, s.keyOf q < key)
    (larger : ∀ q ∈ above, key < s.keyOf q) :
    (below ++ s.nodes.length :: above).Pairwise (fun p q => s'.keyOf p < s'.keyOf q) := by
  have keyBelow : ∀ q ∈ below, s'.keyOf q = s.keyOf q :=
    fun q hq => spliced.keyOld q (List.mem_append_left _ hq)
  have keyAbove : ∀ q ∈ above, s'.keyOf q = s.keyOf q :=
    fun q hq => spliced.keyOld q (List.mem_append_right _ hq)
  obtain ⟨ascendingBelow, ascendingAbove, -⟩ := List.pairwise_append.mp shape.ascending
  refine List.pairwise_append.mpr ⟨?_, List.pairwise_cons.mpr ⟨?_, ?_⟩, ?_⟩
  · exact ascendingBelow.imp_of_mem fun hp hq less => by
      rwa [keyBelow _ hp, keyBelow _ hq]
  · intro q hq
    rw [spliced.keyNew, keyAbove q hq]
    exact larger q hq
  · exact ascendingAbove.imp_of_mem fun hp hq less => by
      rwa [keyAbove _ hp, keyAbove _ hq]
  · intro p hp q hq
    rw [keyBelow p hp]
    rcases List.mem_cons.mp hq with rfl | old
    · rw [spliced.keyNew]
      exact smaller p hp
    · rw [keyAbove q old]
      exact (smaller p hp).trans (larger q old)

/-- The new entry stands between the old ones. -/
theorem entriesOf_eq (spliced : Spliced s s' (below ++ above) level key value)
    (smaller : ∀ q ∈ below, s.keyOf q < key) (larger : ∀ q ∈ above, key < s.keyOf q) :
    s'.entriesOf (below ++ s.nodes.length :: above) =
      insertList key value (s.entriesOf (below ++ above)) := by
  have kept : ∀ part, part ⊆ below ++ above → s'.entriesOf part = s.entriesOf part :=
    fun part old => List.map_congr_left fun q hq => by
      rw [spliced.keyOld q (old hq), spliced.valueOld q (old hq)]
  rw [entriesOf_append, entriesOf_cons, kept below (List.subset_append_left _ _),
    kept above (List.subset_append_right _ _), spliced.keyNew, spliced.valueNew,
    entriesOf_append, insertList_append_of_lt, insertList_of_lt]
  · intro b hb
    obtain ⟨q, member, rfl⟩ := mem_entriesOf.mp hb
    exact larger q member
  · intro b hb
    obtain ⟨q, member, rfl⟩ := mem_entriesOf.mp hb
    exact smaller q member

end Spliced

/-- A new node costs more than nothing. -/
theorem nodeCost_pos (level : Nat) (key value : Bytes) : 0 < nodeCost level key value := by
  unfold nodeCost nodeSize
  omega

/-- Inserting a missing key splices a new node in between. -/
theorem insert_absent (shape : Shape s (below ++ above)) (smaller : ∀ q ∈ below, s.keyOf q < key)
    (larger : ∀ q ∈ above, key < s.keyOf q) {level : Nat} (levels : level < s.maxLevel)
    (value : Bytes) :
    ∃ s', s.insert level key value = .ok s' ∧ Shape s' (below ++ s.nodes.length :: above) ∧
      s'.entriesOf (below ++ s.nodes.length :: above) =
        insertList key value (s.entriesOf (below ++ above)) ∧
      s'.maxLevel = s.maxLevel ∧ s'.size = s.size + nodeCost level key value := by
  have taken : ((List.range s.maxLevel).map (s.predecessor below)).take (level + 1) =
      (List.range (level + 1)).map (s.predecessor below) := by
    rw [← List.map_take, List.take_range, Nat.min_eq_left levels]
  have missing : s.holdsKey above.head? key = .ok none := by
    cases above with
    | nil => rfl
    | cons q above =>
        have inside := (shape.inside q (List.mem_append_right _ List.mem_cons_self)).2
        rw [List.head?_cons, holdsKey_eq inside, if_neg (larger q List.mem_cons_self).ne']
  obtain ⟨s', run, same, linked⟩ := splice_fresh shape levels key value
  have spliced := same.spliced shape
  have grown : s'.size + nodeCost level key value = s.size + nodeCost level key value := by
    rw [spliced.size]
  have entries := spliced.entriesOf_eq smaller larger
  refine ⟨{ s' with size := s'.size + nodeCost level key value }, ?_, ?_, entries,
    spliced.maxLevel, grown⟩
  · simp only [insert, descend_head shape smaller (fun q hq => (larger q hq).le), Result.ok_bind,
      nextAt_predecessor shape, missing, taken]
    exact congrArg (· >>= _) run
  · have length := spliced.length
    constructor
    · exact spliced.maxLevel ▸ shape.lanes
    · exact spliced.headOld.trans (shape.head.trans spliced.maxLevel.symm)
    · intro q hq
      change 0 < q ∧ q < s'.nodes.length
      rcases List.mem_append.mp hq with old | rest
      · have inside := shape.inside q (List.mem_append_left _ old)
        omega
      · rcases List.mem_cons.mp rest with rfl | old
        · have nonempty := shape.nonempty
          omega
        · have inside := shape.inside q (List.mem_append_right _ old)
          omega
    · intro q hq
      change 0 < s'.height q ∧ s'.height q ≤ s'.maxLevel
      rw [spliced.maxLevel]
      rcases List.mem_append.mp hq with old | rest
      · rw [spliced.heightOld q (List.mem_append_left _ old)]
        exact shape.towers q (List.mem_append_left _ old)
      · rcases List.mem_cons.mp rest with rfl | old
        · rw [spliced.heightNew]
          exact ⟨Nat.succ_pos level, levels⟩
        · rw [spliced.heightOld q (List.mem_append_right _ old)]
          exact shape.towers q (List.mem_append_right _ old)
    · exact spliced.ascending shape smaller larger
    · intro l hl
      have lane := linked l (spliced.maxLevel ▸ hl)
      have filterOld : ∀ part, part ⊆ below ++ above →
          part.filter (fun p => l < s'.height p) = part.filter (fun p => l < s.height p) :=
        fun part old => List.filter_congr fun q hq => by rw [spliced.heightOld q (old hq)]
      change Lane (s'.pointer l) head ((below ++ s.nodes.length :: above).filter
        (fun p => l < s'.height p))
      rw [List.filter_append, List.filter_cons, spliced.heightNew,
        filterOld below (List.subset_append_left _ _),
        filterOld above (List.subset_append_right _ _)]
      simpa [Nat.lt_succ_iff] using lane
    · intro empty
      simp at empty
    · intro _
      change selfSize < s'.size + nodeCost level key value
      have atLeast : selfSize ≤ s.size := by
        by_cases empty : below ++ above = []
        · exact (shape.sizeEmpty empty).ge
        · exact (shape.sizeNonempty empty).le
      have positive := nodeCost_pos level key value
      omega

end Insert

/-! ## The map a list stands for -/

/-- The list is well formed. -/
def Valid (s : SkipList) : Prop := ∃ order, Shape s order

/-- The map a list stands for. -/
def contents (s : SkipList) : SortedMap Bytes Bytes :=
  match s.iter with
  | .ok entries => SortedMap.empty.insertAll entries
  | .error _ => SortedMap.empty

/-- What an insertion adds to the size estimate: nothing, if the key is there. -/
def growth (held : SortedMap Bytes Bytes) (level : Nat) (key value : Bytes) : Nat :=
  if (held.lookup key).isSome then 0 else nodeCost level key value

theorem entries_contents {s : SkipList} {order : List Nat} (shape : Shape s order) :
    s.contents.entries = s.entriesOf order := by
  unfold contents
  rw [iter_eq shape]
  exact congrArg SortedMap.entries
    (SortedMap.insertAll_entries_self (m := ⟨s.entriesOf order, shape.ascendingKeys⟩))

/-- A new list is well formed and empty. -/
theorem valid_new (maxLevel : Nat) (positive : 0 < maxLevel) :
    Valid (new maxLevel) ∧ (new maxLevel).contents = SortedMap.empty := by
  have shape : Shape (new maxLevel) [] := by
    constructor
    · exact positive
    · simp [height, new, head]
    · simp
    · simp
    · exact List.Pairwise.nil
    · intro level levels
      have levels : level < maxLevel := levels
      simp [pointer, new, head, levels]
    · exact fun _ => rfl
    · simp
  exact ⟨⟨_, shape⟩, SortedMap.ext_entries (entries_contents shape)⟩

namespace Valid

variable {s : SkipList}

theorem get_eq (valid : Valid s) (key : Bytes) : s.get key = .ok (s.contents.lookup key) := by
  obtain ⟨order, shape⟩ := valid
  rw [SkipList.get_eq shape, SortedMap.lookup, entries_contents shape]

theorem iter_eq (valid : Valid s) : s.iter = .ok s.contents.entries := by
  obtain ⟨order, shape⟩ := valid
  rw [SkipList.iter_eq shape, entries_contents shape]

theorem scan_eq (valid : Valid s) (start stop : Bytes) :
    s.scan start stop = .ok (s.contents.entries.filter (fun b => start ≤ b.1 ∧ b.1 < stop)) := by
  obtain ⟨order, shape⟩ := valid
  rw [SkipList.scan_eq shape, entries_contents shape]

/-- The size estimate tells an empty list from the others. -/
theorem size_le_iff (valid : Valid s) : s.size ≤ selfSize ↔ s.contents.entries = [] := by
  obtain ⟨order, shape⟩ := valid
  rw [entries_contents shape]
  cases order with
  | nil => simp [shape.sizeEmpty rfl, entriesOf]
  | cons p order => simpa using shape.sizeNonempty (List.cons_ne_nil _ _)

/-- **Insertion.** It binds the key in the map and keeps the list well formed; the size
estimate counts a key when it comes in. -/
theorem insert_ok (valid : Valid s) {level : Nat} (levels : level < s.maxLevel)
    (key value : Bytes) :
    ∃ s', s.insert level key value = .ok s' ∧ Valid s' ∧
      s'.contents = s.contents.insert key value ∧ s'.maxLevel = s.maxLevel ∧
      s'.size = s.size + growth s.contents level key value := by
  obtain ⟨order, shape⟩ := valid
  obtain ⟨below, above, rfl, smaller, larger⟩ := exists_split shape.ascending key
  have notBelow : lookupList key (s.entriesOf below) = none := by
    rw [lookupList_eq_none]
    intro b hb
    obtain ⟨q, member, rfl⟩ := mem_entriesOf.mp hb
    exact (smaller q member).ne
  have found : s.contents.lookup key = lookupList key (s.entriesOf above) := by
    rw [SortedMap.lookup, entries_contents shape, entriesOf_append, lookupList_append, notBelow,
      Option.none_or]
  have present : ∀ p above', above = p :: above' → s.keyOf p = key →
      ∃ s', s.insert level key value = .ok s' ∧ Valid s' ∧
        s'.contents = s.contents.insert key value ∧ s'.maxLevel = s.maxLevel ∧
        s'.size = s.size + growth s.contents level key value := by
    rintro p above' rfl same
    have shape' := shape.withValue p value
    refine ⟨_, insert_present shape smaller same level value, ⟨_, shape'⟩, ?_, rfl, ?_⟩
    · refine SortedMap.ext_entries ?_
      rw [entries_contents shape', entriesOf_withValue shape smaller same]
      exact congrArg (insertList key value) (entries_contents shape).symm
    · have isSome : (s.contents.lookup key).isSome := by
        rw [found, entriesOf_cons, lookupList_cons, if_pos same.symm]
        rfl
      rw [growth, if_pos isSome]
      rfl
  have absent : (∀ q ∈ above, key < s.keyOf q) →
      ∃ s', s.insert level key value = .ok s' ∧ Valid s' ∧
        s'.contents = s.contents.insert key value ∧ s'.maxLevel = s.maxLevel ∧
        s'.size = s.size + growth s.contents level key value := by
    intro strictly
    obtain ⟨s', run, shape', entries, maxLevel, size⟩ :=
      insert_absent shape smaller strictly levels value
    refine ⟨s', run, ⟨_, shape'⟩, SortedMap.ext_entries ?_, maxLevel, ?_⟩
    · rw [entries_contents shape', entries]
      exact congrArg (insertList key value) (entries_contents shape).symm
    · have isNone : s.contents.lookup key = none := by
        rw [found, lookupList_eq_none]
        intro b hb
        obtain ⟨q, member, rfl⟩ := mem_entriesOf.mp hb
        exact (strictly q member).ne'
      rw [growth, isNone, size]
      rfl
  cases above with
  | nil => exact absent (by simp)
  | cons p above =>
      by_cases same : s.keyOf p = key
      · exact present p above rfl same
      · have less : key < s.keyOf p :=
          lt_of_le_of_ne (larger p List.mem_cons_self) (Ne.symm same)
        have ascending := (List.pairwise_append.mp shape.ascending).2.1
        refine absent fun q hq => ?_
        rcases List.mem_cons.mp hq with rfl | later
        · exact less
        · exact less.trans ((List.pairwise_cons.mp ascending).1 q later)

end Valid

end SkipList

end KvEngine
