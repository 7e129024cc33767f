import Mathlib.Algebra.GroupWithZero.Nat
import Mathlib.Data.List.Sort
import Mathlib.Logic.Relation

/-!
# Marking by worklist

Depth-first marking of everything reachable from a stack of nodes, with early stopping at nodes
already marked.

* `mark` is the loop: pop a node, skip it if it is marked, else mark it and push its successors.
  Its fuel only serves termination; `fuelFor` is enough for any stack (`mark_fuel`).
* When the marked set is closed under successors up to the stack, the loop adds exactly the nodes
  reachable from the stack (`mem_mark_iff`) and leaves the set closed (`closed_mark`).
* `Reaches` is the relation such marks keep track of, with what new edges out of one node change
  (`reaches_add_edges`).
-/

namespace Bellbook.Worklist

open Std

variable {α : Type} [Ord α] [TransOrd α] [LawfulEqOrd α] (succ : α → List α)

/-- The marking loop. The last successor pushed is the first popped. -/
def mark : Nat → ExtTreeSet α → List α → ExtTreeSet α
  | 0, seen, _ => seen
  | _ + 1, seen, [] => seen
  | fuel + 1, seen, x :: stack =>
    if x ∈ seen then mark fuel seen stack
    else mark fuel (seen.insert x) ((succ x).reverse ++ stack)

/-- Pushes still to come from the unmarked nodes of `keys`. -/
def pending (keys : List α) (seen : ExtTreeSet α) : Nat :=
  ((keys.filter fun k => k ∉ seen).map fun k => (succ k).length).sum

/-- Iterations enough to mark everything from `stack`, when only `keys` have successors. -/
def fuelFor (keys : List α) (stack : List α) : Nat :=
  1 + stack.length + (keys.map fun k => (succ k).length).sum

/-- One edge of the graph. -/
def Edge (x y : α) : Prop := y ∈ succ x

/-- Successors of marked nodes are marked or on the stack. -/
def Closed (seen : ExtTreeSet α) (stack : List α) : Prop :=
  ∀ x ∈ seen, ∀ y ∈ succ x, y ∈ seen ∨ y ∈ stack

variable {succ}

theorem mem_insert_iff {s : ExtTreeSet α} {x y : α} : y ∈ s.insert x ↔ y = x ∨ y ∈ s := by
  rw [ExtTreeSet.mem_insert, LawfulEqOrd.compare_eq_iff_eq, eq_comm]

/-- Marking a node settles the pushes it makes. -/
theorem pending_insert {keys : List α} (hnodup : keys.Nodup) {seen : ExtTreeSet α} {x : α}
    (hx : x ∉ seen) (hkeys : succ x ≠ [] → x ∈ keys) :
    pending succ keys (seen.insert x) + (succ x).length ≤ pending succ keys seen := by
  induction keys with
  | nil =>
    have : succ x = [] := by
      by_contra h
      simpa using hkeys h
    simp [this, pending]
  | cons k keys ih =>
    obtain ⟨hk, hnodup⟩ := List.nodup_cons.mp hnodup
    by_cases hkx : k = x
    · subst hkx
      have hrest : pending succ keys (seen.insert k) = pending succ keys seen := by
        unfold pending
        congr 2
        apply List.filter_congr
        intro j hj
        have : k ≠ j := fun h => hk (h ▸ hj)
        simp [this]
      have hself : k ∈ seen.insert k := mem_insert_iff.mpr (.inl rfl)
      have hdrop : pending succ (k :: keys) (seen.insert k) = pending succ keys (seen.insert k) := by
        simp [pending, hself]
      have hadd : pending succ (k :: keys) seen = (succ k).length + pending succ keys seen := by
        simp [pending, hx]
      omega
    · have hmem : k ∈ seen.insert x ↔ k ∈ seen := by simp [Ne.symm hkx]
      have hih := ih hnodup fun h => (List.mem_cons.mp (hkeys h)).resolve_left (Ne.symm hkx)
      by_cases hks : k ∈ seen
      · have h1 : pending succ (k :: keys) seen = pending succ keys seen := by
          simp [pending, hks]
        have h2 : pending succ (k :: keys) (seen.insert x) = pending succ keys (seen.insert x) := by
          simp [pending, hmem.mpr hks]
        omega
      · have h1 : pending succ (k :: keys) seen = (succ k).length + pending succ keys seen := by
          simp [pending, hks]
        have h2 : pending succ (k :: keys) (seen.insert x) =
            (succ k).length + pending succ keys (seen.insert x) := by
          have : k ∉ seen.insert x := fun h => hks (hmem.mp h)
          simp [pending, this]
        omega

section Spec

variable {keys : List α} (hnodup : keys.Nodup) (hkeys : ∀ x, succ x ≠ [] → x ∈ keys)
include hnodup hkeys

/-- What the loop leaves behind: it keeps the marks, marks the stack, and marks the successors of
every node it marked itself. -/
theorem mark_complete {fuel : Nat} {seen : ExtTreeSet α} {stack : List α}
    (hfuel : stack.length + pending succ keys seen < fuel) :
    (∀ x ∈ seen, x ∈ mark succ fuel seen stack) ∧ (∀ x ∈ stack, x ∈ mark succ fuel seen stack) ∧
      ∀ x ∈ mark succ fuel seen stack, x ∉ seen →
        ∀ y ∈ succ x, y ∈ mark succ fuel seen stack := by
  induction fuel generalizing seen stack with
  | zero => omega
  | succ fuel ih =>
    cases stack with
    | nil => exact ⟨fun _ h => h, by simp, fun x h hn => absurd h hn⟩
    | cons x stack =>
      rw [List.length_cons] at hfuel
      by_cases hx : x ∈ seen
      · rw [mark, if_pos hx]
        obtain ⟨h1, h2, h3⟩ := @ih seen stack (by omega)
        refine ⟨h1, fun y hy => ?_, h3⟩
        rcases List.mem_cons.mp hy with rfl | hy
        · exact h1 _ hx
        · exact h2 y hy
      · rw [mark, if_neg hx]
        have hpend := pending_insert hnodup hx (hkeys x)
        obtain ⟨h1, h2, h3⟩ := @ih (seen.insert x) ((succ x).reverse ++ stack)
          (by simp only [List.length_append, List.length_reverse]; omega)
        have hself := h1 x (mem_insert_iff.mpr (.inl rfl))
        refine ⟨fun y hy => h1 y (mem_insert_iff.mpr (.inr hy)), fun y hy => ?_, ?_⟩
        · rcases List.mem_cons.mp hy with rfl | hy
          · exact hself
          · exact h2 y (List.mem_append_right _ hy)
        · intro y hy hn z hz
          by_cases hyx : y = x
          · subst hyx
            exact h2 z (List.mem_append_left _ (List.mem_reverse.mpr hz))
          · exact h3 y hy (fun h => (mem_insert_iff.mp h).elim hyx hn) z hz

omit hnodup hkeys in
/-- The loop marks nothing that is out of reach of the stack. -/
theorem mark_sound {fuel : Nat} {seen : ExtTreeSet α} {stack : List α} {y : α}
    (hy : y ∈ mark succ fuel seen stack) :
    y ∈ seen ∨ ∃ x ∈ stack, Relation.ReflTransGen (Edge succ) x y := by
  induction fuel generalizing seen stack with
  | zero => exact .inl hy
  | succ fuel ih =>
    cases stack with
    | nil => exact .inl hy
    | cons x stack =>
      by_cases hx : x ∈ seen
      · rw [mark, if_pos hx] at hy
        rcases ih hy with h | ⟨z, hz, hpath⟩
        · exact .inl h
        · exact .inr ⟨z, List.mem_cons_of_mem _ hz, hpath⟩
      · rw [mark, if_neg hx] at hy
        rcases ih hy with h | ⟨z, hz, hpath⟩
        · rcases mem_insert_iff.mp h with rfl | h
          · exact .inr ⟨y, List.mem_cons_self, .refl⟩
          · exact .inl h
        · rcases List.mem_append.mp hz with hz | hz
          · exact .inr ⟨x, List.mem_cons_self, .head (List.mem_reverse.mp hz) hpath⟩
          · exact .inr ⟨z, List.mem_cons_of_mem _ hz, hpath⟩

omit [LawfulEqOrd α] hnodup hkeys in
theorem pending_le_sum (seen : ExtTreeSet α) :
    pending succ keys seen ≤ (keys.map fun k => (succ k).length).sum := by
  induction keys with
  | nil => simp [pending]
  | cons k keys ih =>
    unfold pending at ih ⊢
    by_cases hk : k ∈ seen
    · simp only [List.filter_cons, hk, not_true, decide_false, List.map_cons, List.sum_cons]
      simp only [Bool.false_eq_true, if_false]
      omega
    · simp only [List.filter_cons, hk, not_false_eq_true, decide_true, List.map_cons, List.sum_cons,
        if_true]
      omega

omit [LawfulEqOrd α] hnodup hkeys in
theorem mark_fuel (seen : ExtTreeSet α) (stack : List α) :
    stack.length + pending succ keys seen < fuelFor succ keys stack := by
  have : pending succ keys seen ≤ (keys.map fun k => (succ k).length).sum := pending_le_sum seen
  unfold fuelFor
  omega

theorem closed_mark {seen : ExtTreeSet α} {stack : List α} (hclosed : Closed succ seen stack) :
    Closed succ (mark succ (fuelFor succ keys stack) seen stack) [] := by
  intro x hx y hy
  left
  obtain ⟨h1, h2, h3⟩ := mark_complete hnodup hkeys (mark_fuel seen stack)
  by_cases hs : x ∈ seen
  · rcases hclosed x hs y hy with h | h
    · exact h1 y h
    · exact h2 y h
  · exact h3 x hx hs y hy

/-- **Marking a stack**, from a set of marks that is closed up to the stack. -/
theorem mem_mark_iff {seen : ExtTreeSet α} {stack : List α} (hclosed : Closed succ seen stack)
    {y : α} :
    y ∈ mark succ (fuelFor succ keys stack) seen stack ↔
      y ∈ seen ∨ ∃ x ∈ stack, Relation.ReflTransGen (Edge succ) x y := by
  refine ⟨mark_sound, ?_⟩
  obtain ⟨h1, h2, -⟩ := mark_complete hnodup hkeys (mark_fuel seen stack)
  rintro (hy | ⟨x, hx, hpath⟩)
  · exact h1 y hy
  · induction hpath with
    | refl => exact h2 x hx
    | @tail b c _ hedge ihp =>
      exact (closed_mark hnodup hkeys hclosed b ihp c hedge).resolve_right (by simp)

end Spec

/-! ## Reaching a target -/

section Reach

variable {α : Type} {E E' : α → α → Prop} {R T : α → Prop}

/-- Some target lies one or more edges away. -/
def Reaches (E : α → α → Prop) (R : α → Prop) (x : α) : Prop := ∃ y, Relation.TransGen E x y ∧ R y

theorem Reaches.cons {x y : α} (h : E x y) (hy : R y ∨ Reaches E R y) : Reaches E R x := by
  rcases hy with hy | ⟨z, hpath, hz⟩
  · exact ⟨y, .single h, hy⟩
  · exact ⟨z, .head h hpath, hz⟩

theorem Reaches.mono (hE : ∀ x y, E x y → E' x y) {x : α} (h : Reaches E R x) :
    Reaches E' R x := by
  obtain ⟨y, hpath, hy⟩ := h
  exact ⟨y, Relation.TransGen.mono hE _ _ hpath, hy⟩

theorem Reaches.of_path {x y : α} (hpath : Relation.ReflTransGen E x y) (hy : Reaches E R y) :
    Reaches E R x := by
  obtain ⟨z, hz, hR⟩ := hy
  exact ⟨z, hz.trans_right hpath, hR⟩

/-- New edges out of `r` to `T`: what reaches a target now did before, or leads to `r` when one of
the new edges does. -/
theorem reaches_add_edges {r : α} (hE : ∀ x y, E' x y ↔ E x y ∨ (x = r ∧ T y)) {x : α} :
    Reaches E' R x ↔ Reaches E R x ∨
      ((∃ t, T t ∧ (R t ∨ Reaches E R t)) ∧ Relation.ReflTransGen E' x r) := by
  have hsub : ∀ x y, E x y → E' x y := fun x y h => (hE x y).mpr (.inl h)
  constructor
  · rintro ⟨z, hpath, hz⟩
    induction hpath using Relation.TransGen.head_induction_on with
    | @single x hxz =>
      rcases (hE x z).mp hxz with h | ⟨rfl, hT⟩
      · exact .inl (.cons h (.inl hz))
      · exact .inr ⟨⟨z, hT, .inl hz⟩, .refl⟩
    | @head x y hxy _ ih =>
      rcases ih with ih | ⟨hT, hyr⟩
      · rcases (hE x y).mp hxy with h | ⟨rfl, hT⟩
        · exact .inl (.cons h (.inr ih))
        · exact .inr ⟨⟨y, hT, .inr ih⟩, .refl⟩
      · exact .inr ⟨hT, .head hxy hyr⟩
  · rintro (h | ⟨⟨t, hT, ht⟩, hpath⟩)
    · exact h.mono hsub
    · exact .of_path hpath (.cons ((hE r t).mpr (.inr ⟨rfl, hT⟩)) (ht.imp_right (.mono hsub)))

/-- One more target. -/
theorem reaches_add_target {q x : α} :
    Reaches E (fun y => y = q ∨ R y) x ↔ Reaches E R x ∨ Relation.TransGen E x q := by
  constructor
  · rintro ⟨y, hpath, rfl | hy⟩
    · exact .inr hpath
    · exact .inl ⟨y, hpath, hy⟩
  · rintro (⟨y, hpath, hy⟩ | hpath)
    · exact ⟨y, hpath, .inr hy⟩
    · exact ⟨q, hpath, .inl rfl⟩

end Reach

end Bellbook.Worklist
