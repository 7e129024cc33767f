import Mathlib.Data.List.Induction
import Bellbook.Lib.Worklist

/-!
# Slots with holders

A table of slots, each held by at most one id, and an index from ids back to their slots.

* A `grant` puts an id into a slot, over whoever held it; a `release` takes an id out of the slot the
  index names, if it still holds it; a `spend` empties a slot whose holder passes a test.
* After any sequence of events in which no id is granted twice, a slot is held by the last id granted to
  it, unless that id has been released or spent since (`active_run_iff`), and the index knows the slot
  of every holder (`indexed_run`).
-/

namespace Bellbook.Slots

open Std

inductive Event (κ ι : Type) where
  | grant (key : κ) (id : ι)
  | release (id : ι)
  | spend (key : κ) (test : ι → Bool)

/-! ## Events -/

section Events

variable {κ ι : Type}

/-- The event ends what the id holds in the slot. -/
def Event.Ends (key : κ) (id : ι) : Event κ ι → Prop
  | .grant key' _ => key' = key
  | .release id' => id' = id
  | .spend key' test => key' = key ∧ test id = true

/-- The id the event grants something to. -/
def Event.grantee : Event κ ι → Option ι
  | .grant _ id => some id
  | _ => none

variable {key : κ} {id : ι} {events : List (Event κ ι)}

/-- The last grant of a slot, with what came after it. -/
def Holds (events : List (Event κ ι)) (key : κ) (id : ι) : Prop :=
  ∃ before after, events = before ++ .grant key id :: after ∧ ∀ e ∈ after, ¬e.Ends key id

theorem holds_concat {e : Event κ ι} : Holds (events ++ [e]) key id ↔
    e = .grant key id ∨ (Holds events key id ∧ ¬e.Ends key id) := by
  constructor
  · rintro ⟨before, after, heq, hafter⟩
    rcases List.eq_nil_or_concat after with rfl | ⟨after', e', rfl⟩
    · obtain ⟨-, hlast⟩ := List.append_inj' heq rfl
      exact .inl (List.singleton_inj.mp hlast)
    · simp only [List.concat_eq_append] at heq hafter
      rw [← List.cons_append, ← List.append_assoc] at heq
      obtain ⟨rfl, hlast⟩ := List.append_inj' heq rfl
      obtain rfl : e = e' := List.singleton_inj.mp hlast
      exact .inr ⟨⟨before, after', rfl, fun x hx => hafter x (List.mem_append_left _ hx)⟩,
        hafter e (by simp)⟩
  · rintro (rfl | ⟨⟨before, after, rfl, hafter⟩, hends⟩)
    · exact ⟨events, [], rfl, by simp⟩
    · refine ⟨before, after ++ [e], by simp, fun x hx => ?_⟩
      rcases List.mem_append.mp hx with hx | hx
      · exact hafter x hx
      · rw [List.mem_singleton.mp hx]
        exact hends

theorem Holds.mem_grantees (h : Holds events key id) : id ∈ events.filterMap Event.grantee := by
  obtain ⟨before, after, rfl, -⟩ := h
  exact List.mem_filterMap.mpr ⟨.grant key id, by simp, rfl⟩

/-- Who holds a slot after the events that a list of records brings. -/
theorem holds_filterMap {α : Type} {event : α → Option (Event κ ι)} {as : List α} :
    Holds (as.filterMap event) key id ↔ ∃ earlier a later, as = earlier ++ a :: later ∧
      event a = some (.grant key id) ∧ ∀ x ∈ later, ∀ e, event x = some e → ¬e.Ends key id := by
  constructor
  · rintro ⟨before, after, heq, hafter⟩
    obtain ⟨as₁, as', rfl, -, hrest⟩ := List.filterMap_eq_append_iff.mp heq
    obtain ⟨as₂, a, later, rfl, -, ha, rfl⟩ := List.filterMap_eq_cons_iff.mp hrest
    refine ⟨as₁ ++ as₂, a, later, by simp, ha, fun x hx e he => ?_⟩
    exact hafter e (List.mem_filterMap.mpr ⟨x, hx, he⟩)
  · rintro ⟨earlier, a, later, rfl, ha, hlater⟩
    refine ⟨earlier.filterMap event, later.filterMap event, ?_, fun e he => ?_⟩
    · rw [List.filterMap_append, List.filterMap_cons, ha]
    · obtain ⟨x, hx, hev⟩ := List.mem_filterMap.mp he
      exact hlater x hx e hev

/-- One more record. -/
theorem holds_filterMap_concat {α : Type} {event : α → Option (Event κ ι)} {as : List α} {a : α} :
    Holds ((as ++ [a]).filterMap event) key id ↔ event a = some (.grant key id) ∨
      (Holds (as.filterMap event) key id ∧ ¬∃ e, event a = some e ∧ e.Ends key id) := by
  cases ha : event a with
  | none => simp [List.filterMap_append, ha]
  | some e =>
    have happend : (as ++ [a]).filterMap event = as.filterMap event ++ [e] := by
      simp [List.filterMap_append, ha]
    rw [happend, holds_concat]
    simp

end Events

/-! ## Tables -/

variable {κ ι : Type} [Ord κ] [TransOrd κ] [LawfulEqOrd κ] [Ord ι] [TransOrd ι] [LawfulEqOrd ι]
  [DecidableEq ι]

structure Table (κ ι : Type) [Ord κ] [TransOrd κ] [Ord ι] [TransOrd ι] where
  active : ExtTreeMap κ ι := ∅
  index : ExtTreeMap ι κ := ∅

/-- Take an id out of the slot it holds. -/
def release (index : ExtTreeMap ι κ) (active : ExtTreeMap κ ι) (id : ι) : ExtTreeMap κ ι :=
  match index[id]? with
  | some key => if active[key]? = some id then active.erase key else active
  | none => active

def Table.step (t : Table κ ι) : Event κ ι → Table κ ι
  | .grant key id => { active := t.active.insert key id, index := t.index.insert id key }
  | .release id => { t with active := release t.index t.active id }
  | .spend key test =>
    match t.active[key]?.filter test with
    | some id => { active := t.active.erase key, index := t.index.erase id }
    | none => t

def run (events : List (Event κ ι)) : Table κ ι := events.foldl Table.step {}

/-- The index knows the slot of every holder. -/
def Table.Indexed (t : Table κ ι) : Prop :=
  ∀ (key : κ) (id : ι), t.active[key]? = some id → t.index[id]? = some key

variable {t : Table κ ι} {key : κ} {id : ι} {events : List (Event κ ι)}

/-! ## One event -/

omit [LawfulEqOrd ι] in
theorem getElem?_release (h : t.Indexed) {target : ι} :
    (release t.index t.active target)[key]? =
      if t.active[key]? = some target then none else t.active[key]? := by
  unfold release
  cases hindex : t.index[target]? with
  | none =>
    have hne : t.active[key]? ≠ some target := by
      intro hkey
      rw [h key target hkey] at hindex
      cases hindex
    rw [if_neg hne]
  | some key' =>
    simp only
    split
    · next hactive =>
      rw [ExtTreeMap.getElem?_erase]
      by_cases hkey : key' = key
      · subst hkey
        rw [if_pos (ReflCmp.compare_self), if_pos hactive]
      · have hne : t.active[key]? ≠ some target := by
          intro hother
          have hslot := h key target hother
          rw [hindex] at hslot
          exact hkey (Option.some.inj hslot)
        rw [if_neg (by simpa using hkey), if_neg hne]
    · next hactive =>
      have hne : t.active[key]? ≠ some target := by
        intro hother
        have hslot := h key target hother
        rw [hindex] at hslot
        obtain rfl : key' = key := Option.some.inj hslot
        exact hactive hother
      rw [if_neg hne]

omit [LawfulEqOrd ι] in
/-- What an event does to a slot. -/
theorem active_step (h : t.Indexed) (e : Event κ ι) :
    (t.step e).active[key]? = some id ↔
      e = .grant key id ∨ (t.active[key]? = some id ∧ ¬e.Ends key id) := by
  cases e with
  | grant key' id' =>
    simp only [Table.step, Event.grant.injEq, Event.Ends, ExtTreeMap.getElem?_insert,
      LawfulEqOrd.compare_eq_iff_eq]
    by_cases hkey : key' = key
    · simp [hkey]
    · simp [hkey]
  | release id' =>
    simp only [Table.step, reduceCtorEq, false_or, Event.Ends, getElem?_release h]
    by_cases hactive : t.active[key]? = some id'
    · rw [if_pos hactive, hactive]
      simp
    · rw [if_neg hactive]
      constructor
      · intro hid
        exact ⟨hid, fun heq => hactive (heq ▸ hid)⟩
      · exact And.left
  | spend key' test =>
    simp only [Table.step, reduceCtorEq, false_or, Event.Ends]
    cases hholder : t.active[key']?.filter test with
    | none =>
      simp only
      constructor
      · rintro hid
        refine ⟨hid, ?_⟩
        rintro ⟨rfl, htest⟩
        rw [hid] at hholder
        simp [Option.filter, htest] at hholder
      · exact And.left
    | some id' =>
      obtain ⟨hactive, htest⟩ := Option.filter_eq_some_iff.mp hholder
      simp only [ExtTreeMap.getElem?_erase, LawfulEqOrd.compare_eq_iff_eq]
      by_cases hkey : key' = key
      · subst hkey
        rw [if_pos ReflCmp.compare_self, hactive]
        constructor
        · intro hnone
          cases hnone
        · rintro ⟨hid, hkept⟩
          obtain rfl : id' = id := Option.some.inj hid
          exact absurd ⟨rfl, htest⟩ hkept
      · simp [hkey]

/-- The index is kept, if no holder is granted a second slot. -/
theorem indexed_step (h : t.Indexed) (e : Event κ ι)
    (hfresh : ∀ (key : κ) (id : ι), t.active[key]? = some id → e.grantee ≠ some id) : (t.step e).Indexed := by
  intro key id hactive
  rcases (active_step h e).mp hactive with rfl | ⟨hold, hends⟩
  · simp [Table.step]
  · have hslot := h key id hold
    cases e with
    | grant key' id' =>
      have hne : id' ≠ id := fun heq => hfresh key id hold (by rw [← heq]; rfl)
      simp only [Table.step, ExtTreeMap.getElem?_insert, LawfulEqOrd.compare_eq_iff_eq, if_neg hne]
      exact hslot
    | release id' => exact hslot
    | spend key' test =>
      simp only [Table.step]
      cases hholder : t.active[key']?.filter test with
      | none => exact hslot
      | some id' =>
        -- the holder of another slot has another entry
        obtain ⟨hother, htest⟩ := Option.filter_eq_some_iff.mp hholder
        have hne : id' ≠ id := by
          rintro rfl
          have hkey := h key' id' hother
          rw [hslot] at hkey
          exact hends ⟨(Option.some.inj hkey).symm, htest⟩
        simp only [ExtTreeMap.getElem?_erase, LawfulEqOrd.compare_eq_iff_eq, if_neg hne]
        exact hslot

/-! ## Sequences of events -/

omit [LawfulEqOrd κ] [LawfulEqOrd ι] in
theorem run_concat (events : List (Event κ ι)) (e : Event κ ι) :
    run (events ++ [e]) = (run events).step e := by
  rw [run, List.foldl_append]
  rfl

/-- **The closed form of a table.** -/
theorem run_spec (hnodup : (events.filterMap Event.grantee).Nodup) :
    (run events).Indexed ∧
      ∀ (key : κ) (id : ι), (run events).active[key]? = some id ↔ Holds events key id := by
  induction events using List.reverseRecOn with
  | nil =>
    refine ⟨fun key id h => ?_, fun key id => ?_⟩
    · simp [run] at h
    · simp [run, Holds]
  | append_singleton events e ih =>
    rw [List.filterMap_append, List.nodup_append] at hnodup
    obtain ⟨hnodup, -, hdisjoint⟩ := hnodup
    obtain ⟨hindexed, hactive⟩ := ih hnodup
    have hfresh : ∀ (key : κ) (id : ι), (run events).active[key]? = some id →
        e.grantee ≠ some id := by
      intro key id hid hgrantee
      have hold := ((hactive key id).mp hid).mem_grantees
      exact hdisjoint id hold id (by simp [hgrantee]) rfl
    rw [run_concat]
    refine ⟨indexed_step hindexed e hfresh, fun key id => ?_⟩
    rw [active_step hindexed, holds_concat, hactive]

theorem active_run_iff (hnodup : (events.filterMap Event.grantee).Nodup) :
    (run events).active[key]? = some id ↔ Holds events key id := (run_spec hnodup).2 key id

theorem indexed_run (hnodup : (events.filterMap Event.grantee).Nodup) : (run events).Indexed :=
  (run_spec hnodup).1

end Bellbook.Slots
