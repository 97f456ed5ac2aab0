import Mathlib.Data.List.Nodup

/-!
# Spending keys once

A set of used keys guards payments: a key is marked as used first and paid for later, and other
keys may be marked and paid for in between. `SpentOnce` is the invariant that relates the set to
the payments made and to the keys that are marked but not yet paid for.
-/

/-- Every used key is paid for or pending, exactly once. -/
structure SpentOnce {K : Type} (used : K → Bool) (paid pending : List K) : Prop where
  nodup : (paid ++ pending).Nodup
  mem_iff : ∀ key, key ∈ paid ++ pending ↔ used key = true

namespace SpentOnce

variable {K : Type} {used : K → Bool} {paid pending : List K} {key : K}

/-- No key is used at first. -/
theorem init : SpentOnce (fun _ : K => false) [] [] :=
  ⟨List.nodup_nil, by simp⟩

/-- An unused key may be marked. -/
theorem mark [DecidableEq K] (h : SpentOnce used paid pending) (hkey : used key = false) :
    SpentOnce (Function.update used key true) paid (key :: pending) where
  nodup := by
    refine List.nodup_middle.mpr (List.nodup_cons.mpr ⟨fun hmem => ?_, h.nodup⟩)
    rw [(h.mem_iff key).mp hmem] at hkey
    exact absurd hkey (by decide)
  mem_iff other := by
    have hother := h.mem_iff other
    rw [List.mem_append] at hother
    by_cases heq : other = key
    · simp [heq]
    · simp [heq, hother]

/-- A pending key may be paid for. -/
theorem pay (h : SpentOnce used paid (key :: pending)) :
    SpentOnce used (paid ++ [key]) pending where
  nodup := by
    rw [List.append_assoc]
    exact h.nodup
  mem_iff other := by
    rw [List.append_assoc]
    exact h.mem_iff other

/-- With nothing pending, a key has been paid for once if it is used and never otherwise. -/
theorem count_eq [DecidableEq K] (h : SpentOnce used paid []) (key : K) :
    paid.count key = if used key then 1 else 0 := by
  have hmem := h.mem_iff key
  have hnodup := h.nodup
  rw [List.append_nil] at hmem hnodup
  cases hused : used key with
  | false => exact List.count_eq_zero_of_not_mem fun hpaid => by simp [hmem.mp hpaid] at hused
  | true => exact List.count_eq_one_of_mem hnodup (hmem.mpr hused)

/-- Keys that have been paid for differ from those paid for later. -/
theorem disjoint_of_append {later : List K} (h : SpentOnce used (paid ++ later) pending) :
    later.Nodup ∧ ∀ key ∈ later, key ∉ paid ∧ key ∉ pending := by
  have hnodup := h.nodup
  rw [List.nodup_append', List.nodup_append'] at hnodup
  obtain ⟨⟨-, hlater, hpaid⟩, -, hpending⟩ := hnodup
  refine ⟨hlater, fun key hkey => ⟨fun hmem => hpaid hmem hkey, fun hmem => ?_⟩⟩
  exact hpending (List.mem_append_right _ hkey) hmem

end SpentOnce

/-- If every entry of a list tells at most one key, no more things with different keys are told by
the list than it has entries. -/
theorem length_le_of_tells {A E K : Type} [DecidableEq E] {key : A → K} {tells : E → K → Prop}
    (hunique : ∀ entry k k', tells entry k → tells entry k' → k = k') {things : List A}
    {entries : List E} (hnodup : (things.map key).Nodup)
    (h : ∀ x ∈ things, ∃ entry ∈ entries, tells entry (key x)) :
    things.length ≤ entries.length := by
  induction things generalizing entries with
  | nil => exact Nat.zero_le _
  | cons x things ih =>
      rw [List.map_cons, List.nodup_cons] at hnodup
      obtain ⟨entry, hentry, htells⟩ := h x List.mem_cons_self
      -- the entry for the first thing is for no other
      have hrest : ∀ y ∈ things, ∃ other ∈ entries.erase entry, tells other (key y) := by
        intro y hy
        obtain ⟨other, hother, htells'⟩ := h y (List.mem_cons_of_mem _ hy)
        refine ⟨other, (List.mem_erase_of_ne fun heq => ?_).mpr hother, htells'⟩
        subst heq
        exact hnodup.1 (hunique other _ _ htells' htells ▸ List.mem_map_of_mem hy)
      have hle := ih hnodup.2 hrest
      rw [List.length_erase_of_mem hentry] at hle
      have hpos := List.length_pos_of_mem hentry
      rw [List.length_cons]
      omega
