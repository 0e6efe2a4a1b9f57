import Mathlib.Order.Compare
import Mathlib.Order.Lattice
import Mathlib.Tactic.Common

/-!
# Binary search

`binarySearchBy f l` is the search that halves the range `[base, base + size)`
and never re-reads its lower end.  `f` compares an element with the target, so
`.gt` says that the element lies above it.  The result is `.ok i` when the
element at `i` compares equal and `.error i` with the insertion point
otherwise; this module shows that on keys in strictly ascending order both
answers mean what they say.
-/

namespace Foundations

universe u v

variable {α : Type u} {K : Type v}

/-- Halve the range until one element is left.  The fuel only has to be as
large as the range. -/
def binarySearchLoop (f : α → Ordering) (l : List α) : Nat → Nat → Nat → Nat
  | 0, _, base => base
  | fuel + 1, size, base =>
      if size ≤ 1 then base
      else
        let half := size / 2
        let mid := base + half
        let base' :=
          match l[mid]? with
          | some a => if f a = .gt then base else mid
          | none => base
        binarySearchLoop f l fuel (size - half) base'

/-- Search for an element that compares equal. -/
def binarySearchBy (f : α → Ordering) (l : List α) : Except Nat Nat :=
  if l.length = 0 then .error 0
  else
    let base := binarySearchLoop f l l.length l.length 0
    match l[base]? with
    | none => .error 0
    | some a =>
        match f a with
        | .eq => .ok base
        | .lt => .error (base + 1)
        | .gt => .error base

/-- Once an element lies above the target, all later ones do. -/
def AboveFrom (f : α → Ordering) (l : List α) : Prop :=
  ∀ (i j : Nat) (a b : α), i < j → l[i]? = some a → l[j]? = some b → f a = .gt → f b = .gt

/-- The loop ends at the last element that is not above the target, or at the
first element. -/
theorem binarySearchLoop_spec {f : α → Ordering} {l : List α} (above : AboveFrom f l) :
    ∀ (fuel size base : Nat), size ≤ fuel → 0 < size → base + size ≤ l.length →
      (base = 0 ∨ ∃ a, l[base]? = some a ∧ f a ≠ .gt) →
      (∀ j b, base + size ≤ j → l[j]? = some b → f b = .gt) →
      let last := binarySearchLoop f l fuel size base
      last < l.length ∧ (last = 0 ∨ ∃ a, l[last]? = some a ∧ f a ≠ .gt) ∧
        (∀ j b, last < j → l[j]? = some b → f b = .gt) := by
  intro fuel
  induction fuel with
  | zero => intro size base enough positive; omega
  | succ fuel inductionHypothesis =>
      intro size base enough positive inside lower upper
      unfold binarySearchLoop
      by_cases single : size ≤ 1
      · rw [if_pos single]
        have one : size = 1 := by omega
        subst one
        exact ⟨by omega, lower, fun j b later => upper j b (by omega)⟩
      · rw [if_neg single]
        have middleInside : base + size / 2 < l.length := by omega
        obtain ⟨a, atMiddle⟩ : ∃ a, l[base + size / 2]? = some a :=
          ⟨_, List.getElem?_eq_getElem middleInside⟩
        simp only [atMiddle]
        by_cases greater : f a = .gt
        · rw [if_pos greater]
          refine inductionHypothesis _ _ (by omega) (by omega) (by omega) lower ?_
          intro j b late found
          rcases Nat.lt_or_ge (base + size / 2) j with beyond | here
          · exact above _ j a b beyond atMiddle found greater
          · have equal : j = base + size / 2 := by omega
            subst equal
            rw [atMiddle] at found
            cases found
            exact greater
        · rw [if_neg greater]
          exact inductionHypothesis _ _ (by omega) (by omega) (by omega)
            (Or.inr ⟨a, atMiddle, greater⟩)
            (fun j b late => upper j b (by omega))

section Keys

variable [LinearOrder K]

/-- Order of an element's key against the key looked for. -/
def against (key : α → K) (k : K) (a : α) : Ordering := cmp (key a) k

variable {key : α → K} {l : List α} {k : K}

theorem against_eq_lt {a : α} : against key k a = .lt ↔ key a < k := cmp_eq_lt_iff _ _

theorem against_eq_eq {a : α} : against key k a = .eq ↔ key a = k := cmp_eq_eq_iff _ _

theorem against_eq_gt {a : α} : against key k a = .gt ↔ k < key a := cmp_eq_gt_iff _ _

/-- Keys ascend strictly along the list. -/
def AscendingBy (key : α → K) (l : List α) : Prop :=
  l.Pairwise (fun a b => key a < key b)

theorem AscendingBy.getElem?_lt (ascending : AscendingBy key l) {i j : Nat} {a b : α}
    (before : i < j) (ha : l[i]? = some a) (hb : l[j]? = some b) : key a < key b := by
  obtain ⟨hi, rfl⟩ := List.getElem?_eq_some_iff.mp ha
  obtain ⟨hj, rfl⟩ := List.getElem?_eq_some_iff.mp hb
  exact List.pairwise_iff_getElem.mp ascending i j hi hj before

theorem AscendingBy.aboveFrom (ascending : AscendingBy key l) (k : K) :
    AboveFrom (against key k) l := by
  intro i j a b before ha hb greater
  rw [against_eq_gt] at greater ⊢
  exact lt_trans greater (ascending.getElem?_lt before ha hb)

/-- The search succeeds only at an element with the key. -/
theorem binarySearchBy_ok {i : Nat}
    (found : binarySearchBy (against key k) l = .ok i) :
    ∃ a, l[i]? = some a ∧ key a = k := by
  unfold binarySearchBy at found
  split at found
  · cases found
  · simp only at found
    split at found
    · cases found
    · next a atBase =>
        split at found
        · next equal =>
            cases found
            exact ⟨a, atBase, against_eq_eq.mp equal⟩
        · cases found
        · cases found

/-- When the search fails, its index separates the smaller keys from the larger ones. -/
theorem binarySearchBy_error (ascending : AscendingBy key l) {i : Nat}
    (missed : binarySearchBy (against key k) l = .error i) :
    i ≤ l.length ∧ (∀ j a, j < i → l[j]? = some a → key a < k) ∧
      (∀ j a, i ≤ j → l[j]? = some a → k < key a) := by
  unfold binarySearchBy at missed
  split at missed
  · next empty =>
      cases missed
      have nil : l = [] := List.length_eq_zero_iff.mp empty
      subst nil
      simp
  · next nonempty =>
      obtain ⟨inside, lower, upper⟩ :=
        binarySearchLoop_spec (ascending.aboveFrom k) l.length l.length 0 (Nat.le_refl _)
          (by omega) (by omega) (Or.inl rfl)
          (fun j b late found => by
            have := (List.getElem?_eq_some_iff.mp found).1
            omega)
      simp only at missed
      generalize binarySearchLoop (against key k) l l.length l.length 0 = base
        at inside lower upper missed
      rw [List.getElem?_eq_getElem inside] at missed
      have atBase : l[base]? = some l[base] := List.getElem?_eq_getElem inside
      simp only at missed
      have larger : ∀ j a, base < j → l[j]? = some a → k < key a := fun j a late found =>
        against_eq_gt.mp (upper j a late found)
      split at missed
      · cases missed
      · next less =>
          cases missed
          have below : key l[base] < k := against_eq_lt.mp less
          refine ⟨by omega, fun j a early found => ?_, fun j a late => larger j a (by omega)⟩
          rcases Nat.lt_or_ge j base with before | notBefore
          · exact lt_trans (ascending.getElem?_lt before found atBase) below
          · have equal : j = base := by omega
            subst equal
            rw [atBase] at found
            cases found
            exact below
      · next greater =>
          cases missed
          have aboveBase : k < key l[i] := against_eq_gt.mp greater
          refine ⟨by omega, fun j a early found => ?_, fun j a late found => ?_⟩
          · rcases lower with zero | ⟨a', found', notGreater⟩
            · omega
            · rw [atBase] at found'
              cases found'
              exact absurd greater notGreater
          · rcases Nat.lt_or_ge i j with beyond | notBeyond
            · exact larger j a beyond found
            · have equal : j = i := by omega
              subst equal
              rw [atBase] at found
              cases found
              exact aboveBase

end Keys

end Foundations
