import Mathlib.Data.Fintype.Basic
import Mathlib.Data.List.Perm.Basic
import Mathlib.Data.List.FinRange
import Mathlib.Order.GameAdd

/-!
# Programs that run concurrently

A program awaits effects, whose answers the environment chooses, and joins programs that run
concurrently. Its runs are labelled with the events in the order in which they happen, so every
order in which joined programs can take turns is a run.

`Meets` says what the events and the result of every run are like. It is proved along the program:
`meets_join` takes what each of the joined programs meets, and an interleaving of their events. No
program runs forever (`acc_step`) and none gets stuck (`exists_step`).
-/

namespace Async

/-! ## Interleavings -/

section Interleaving

variable {ι α β : Type} [DecidableEq ι] {trs : ι → List α} {tr tr' : List α} {i : ι}

/-- A list is an interleaving of others: each of its elements is assigned to one of them, which
lists its own in the same order. -/
def Interleaves (trs : ι → List α) (tr : List α) : Prop :=
  ∃ tagged : List (ι × α), tr = tagged.map Prod.snd ∧
    ∀ i, trs i = (tagged.filter fun x => x.1 = i).map Prod.snd

/-- Nothing interleaves nothing. -/
theorem interleaves_nil : Interleaves (fun _ : ι => ([] : List α)) [] :=
  ⟨[], rfl, fun _ => rfl⟩

/-- One of the lists goes on. -/
theorem Interleaves.append (h : Interleaves trs tr) (i : ι) (xs : List α) :
    Interleaves (Function.update trs i (trs i ++ xs)) (tr ++ xs) := by
  obtain ⟨tagged, rfl, htrs⟩ := h
  refine ⟨tagged ++ xs.map fun x => (i, x), by simp, fun j => ?_⟩
  rw [List.filter_append, List.map_append, ← htrs, List.filter_map, List.map_map]
  by_cases hj : j = i
  · subst hj
    rw [Function.update_self]
    simp [Function.comp_def]
  · rw [Function.update_of_ne hj]
    simp [Function.comp_def, Ne.symm hj]

/-- What is in one of the lists is in the interleaving. -/
theorem Interleaves.subset (h : Interleaves trs tr) (i : ι) : trs i ⊆ tr := by
  obtain ⟨tagged, rfl, htrs⟩ := h
  rw [htrs]
  exact List.map_subset _ (List.filter_subset_self _)

/-- What is in the interleaving is in one of the lists. -/
theorem Interleaves.exists_mem (h : Interleaves trs tr) {x : α} (hx : x ∈ tr) : ∃ i, x ∈ trs i := by
  obtain ⟨tagged, rfl, htrs⟩ := h
  obtain ⟨⟨i, x⟩, hmem, rfl⟩ := List.mem_map.mp hx
  refine ⟨i, ?_⟩
  rw [htrs]
  exact List.mem_map.mpr ⟨(i, x), List.mem_filter.mpr ⟨hmem, by simp⟩, rfl⟩

/-- Selecting from all of the lists selects from their interleaving. -/
theorem Interleaves.filterMap (h : Interleaves trs tr) (g : α → Option β) :
    Interleaves (fun i => (trs i).filterMap g) (tr.filterMap g) := by
  obtain ⟨tagged, rfl, htrs⟩ := h
  refine ⟨tagged.filterMap fun x => (g x.2).map (Prod.mk x.1), ?_, fun i => ?_⟩
  · rw [List.map_filterMap, List.filterMap_map]
    simp [Function.comp_def]
  · simp only [htrs]
    clear htrs
    induction tagged with
    | nil => rfl
    | cons x tagged ih =>
        obtain ⟨j, a⟩ := x
        by_cases hj : j = i
        · cases hg : g a <;> simp [hj, hg, ih]
        · cases hg : g a <;> simp [hj, hg, ih]

/-- What is in one of the lists only is not disturbed by the others. -/
theorem Interleaves.filterMap_eq (h : Interleaves trs tr) (g : α → Option β) (i : ι)
    (hg : ∀ j, j ≠ i → ∀ x ∈ trs j, g x = none) : tr.filterMap g = (trs i).filterMap g := by
  obtain ⟨tagged, rfl, htrs⟩ := h
  have hnone : ∀ x ∈ tagged, x.1 ≠ i → g x.2 = none := by
    intro x hx hne
    refine hg x.1 hne x.2 ?_
    rw [htrs]
    exact List.mem_map.mpr ⟨x, List.mem_filter.mpr ⟨hx, by simp⟩, rfl⟩
  rw [htrs]
  clear htrs hg
  induction tagged with
  | nil => rfl
  | cons x tagged ih =>
      have ih := ih fun y hy => hnone y (List.mem_cons_of_mem _ hy)
      by_cases hx : x.1 = i
      · simp [hx, ih, List.filterMap_cons]
      · simp [hx, ih, hnone x (by simp) hx]

/-- The interleaving of finitely many lists holds what they hold together. -/
theorem Interleaves.perm {n : ℕ} {trs : Fin n → List α} (h : Interleaves trs tr) :
    tr.Perm (List.ofFn trs).flatten := by
  obtain ⟨tagged, rfl, htrs⟩ := h
  obtain rfl := funext htrs
  rw [List.ofFn_eq_map, ← List.flatMap_def]
  clear htrs
  induction tagged with
  | nil => simp
  | cons x tagged ih =>
      have hcons (i : Fin n) :
          ((x :: tagged).filter fun x => x.1 = i).map Prod.snd =
            (if x.1 = i then [x.2] else []) ++ (tagged.filter fun x => x.1 = i).map Prod.snd := by
        by_cases hx : x.1 = i <;> simp [hx]
      have hself : (List.finRange n).flatMap (fun i => if x.1 = i then [x.2] else []) = [x.2] := by
        obtain ⟨front, back, hsplit⟩ := List.append_of_mem (List.mem_finRange x.1)
        have hnodup := List.nodup_finRange n
        rw [hsplit, List.nodup_middle, List.nodup_cons, List.mem_append, not_or] at hnodup
        have hempty (l : List (Fin n)) (hl : x.1 ∉ l) :
            l.flatMap (fun i => if x.1 = i then [x.2] else []) = [] := by
          refine List.flatMap_eq_nil_iff.mpr fun i hi => if_neg ?_
          rintro rfl
          exact hl hi
        rw [hsplit, List.flatMap_append, List.flatMap_cons, if_pos rfl, hempty front hnodup.1.1,
          hempty back hnodup.1.2]
        rfl
      simp only [hcons]
      refine List.Perm.trans ?_ (List.flatMap_append_perm _ _ _)
      rw [hself]
      exact ih.cons x.2

/-! ## Guards -/

/-- Every element of a list satisfies a guard, given what comes before it. -/
def Guarded (guard : List α → α → Prop) (tr : List α) : Prop :=
  ∀ before x after, tr = before ++ x :: after → guard before x

variable {guard : List α → α → Prop}

/-- Nothing is guarded. -/
theorem guarded_nil : Guarded guard [] := by
  intro before x after h
  simp at h

/-- Two lists are guarded one after the other. -/
theorem guarded_append (h : Guarded guard tr)
    (h' : Guarded (fun before => guard (tr ++ before)) tr') : Guarded guard (tr ++ tr') := by
  intro before x after heq
  rcases List.append_eq_append_iff.mp heq with ⟨rest, rfl, hrest⟩ | ⟨rest, rfl, hrest⟩
  · exact h' rest x after hrest
  · cases rest with
    | nil => simpa using h' [] x after hrest.symm
    | cons y rest =>
        obtain ⟨rfl, -⟩ := List.cons.inj hrest
        exact h before x rest rfl

/-- A guarded list goes on with an element that is allowed after it. -/
theorem Guarded.concat {x : α} (h : Guarded guard tr) (hx : guard tr x) :
    Guarded guard (tr ++ [x]) := by
  refine guarded_append h fun before y after heq => ?_
  obtain ⟨rfl, hnil⟩ | ⟨before, rfl, hnil⟩ := List.cons_eq_append_iff.mp heq
  · obtain ⟨rfl, -⟩ := List.cons.inj hnil
    simpa using hx
  · simp at hnil

/-- A guard that only asks for what has happened is respected by interleaving. -/
theorem Interleaves.guarded (h : Interleaves trs tr)
    (hmono : ∀ before before' x, before ⊆ before' → guard before x → guard before' x)
    (hg : ∀ i, Guarded guard (trs i)) : Guarded guard tr := by
  obtain ⟨tagged, rfl, htrs⟩ := h
  intro before x after heq
  obtain ⟨front, back, rfl, rfl, hback⟩ := List.map_eq_append_iff.mp heq
  obtain ⟨⟨i, x'⟩, back, rfl, rfl, rfl⟩ := List.map_eq_cons_iff.mp hback
  have hown : (front.filter fun y => y.1 = i).map Prod.snd ⊆ front.map Prod.snd :=
    List.map_subset _ (List.filter_subset_self _)
  refine hmono _ _ _ hown (hg i _ _ ((back.filter fun y => y.1 = i).map Prod.snd) ?_)
  rw [htrs]
  simp

end Interleaving

/-! ## Programs -/

/-- A program returns, crashes, awaits the answer to an effect, or joins programs that run
concurrently and goes on with their results. -/
inductive Prog (E : Type) (A : E → Type) (R : Type) : Type where
  | ret (r : R)
  | crash
  | call (e : E) (k : A e → Prog E A R)
  | join (n : ℕ) (ps : Fin n → Prog E A R) (k : (Fin n → R) → Prog E A R)

/-- An effect and its answer. -/
abbrev Event (E : Type) (A : E → Type) := (e : E) × A e

variable {ι E R : Type} {A : E → Type} [DecidableEq ι]

/-- A program that has ended. -/
def Prog.Final (p : Prog E A R) : Prop :=
  p = .crash ∨ ∃ r, p = .ret r

variable (answers : (e : E) → A e → Prop)

/-- One step of a program, with the events in it. Any of the joined programs can be next. They have
to return before their results are used, and one that crashes takes all of them down. -/
inductive Step : Prog E A R → List (Event E A) → Prog E A R → Prop where
  | call {e : E} {k : A e → Prog E A R} {a : A e} (ha : answers e a) :
      Step (.call e k) [⟨e, a⟩] (k a)
  | child {n : ℕ} {ps : Fin n → Prog E A R} {k : (Fin n → R) → Prog E A R} {i : Fin n}
      {evs : List (Event E A)} {p : Prog E A R} (h : Step (ps i) evs p) :
      Step (.join n ps k) evs (.join n (Function.update ps i p) k)
  | joined {n : ℕ} {rs : Fin n → R} {k : (Fin n → R) → Prog E A R} :
      Step (.join n (fun i => .ret (rs i)) k) [] (k rs)
  | crashed {n : ℕ} {ps : Fin n → Prog E A R} {k : (Fin n → R) → Prog E A R} {i : Fin n}
      (h : ps i = .crash) : Step (.join n ps k) [] .crash

/-- The steps of a program up to some point, with the events in them. -/
inductive Run (p : Prog E A R) : List (Event E A) → Prog E A R → Prop where
  | refl : Run p [] p
  | step {tr evs : List (Event E A)} {q q' : Prog E A R} (h : Run p tr q)
      (hstep : Step answers q evs q') : Run p (tr ++ evs) q'

/-- The steps of several programs that take turns, with the events in them. -/
inductive RunAll (ps : ι → Prog E A R) : List (Event E A) → (ι → Prog E A R) → Prop where
  | refl : RunAll ps [] ps
  | step {tr evs : List (Event E A)} {qs : ι → Prog E A R} {i : ι} {q : Prog E A R}
      (h : RunAll ps tr qs) (hstep : Step answers (qs i) evs q) :
      RunAll ps (tr ++ evs) (Function.update qs i q)

variable {answers} {p q : Prog E A R} {ps qs : ι → Prog E A R} {tr evs : List (Event E A)}

/-- Programs that take turns run each for themselves, and their events are interleaved. -/
theorem RunAll.exists_runs (h : RunAll answers ps tr qs) :
    ∃ trs, (∀ i, Run answers (ps i) (trs i) (qs i)) ∧ Interleaves trs tr := by
  induction h with
  | refl => exact ⟨fun _ => [], fun _ => .refl, interleaves_nil⟩
  | @step tr evs qs i q _ hstep ih =>
      obtain ⟨trs, hruns, htrs⟩ := ih
      refine ⟨_, fun j => ?_, htrs.append i evs⟩
      by_cases hj : j = i
      · subst hj
        rw [Function.update_self, Function.update_self]
        exact (hruns j).step hstep
      · rw [Function.update_of_ne hj, Function.update_of_ne hj]
        exact hruns j

/-- A program that has ended does not go on. -/
theorem Run.of_final (hp : p.Final) (h : Run answers p tr q) : tr = [] ∧ q = p := by
  induction h with
  | refl => exact ⟨rfl, rfl⟩
  | step _ hstep ih =>
      obtain ⟨-, rfl⟩ := ih
      rcases hp with rfl | ⟨r, rfl⟩ <;> cases hstep

/-- A program that awaits an effect goes on with an answer. -/
theorem Run.of_call {e : E} {k : A e → Prog E A R} (h : Run answers (.call e k) tr q) :
    (tr = [] ∧ q = .call e k) ∨
      ∃ a rest, answers e a ∧ tr = ⟨e, a⟩ :: rest ∧ Run answers (k a) rest q := by
  induction h with
  | refl => exact .inl ⟨rfl, rfl⟩
  | step _ hstep ih =>
      rcases ih with ⟨rfl, rfl⟩ | ⟨a, rest, ha, rfl, hrest⟩
      · cases hstep with
        | call ha => exact .inr ⟨_, [], ha, rfl, .refl⟩
      · exact .inr ⟨a, _, ha, rfl, hrest.step hstep⟩

/-- Joined programs take turns until one of them has crashed or all have returned. -/
theorem Run.of_join {n : ℕ} {ps : Fin n → Prog E A R} {k : (Fin n → R) → Prog E A R}
    (h : Run answers (.join n ps k) tr q) :
    (∃ qs, RunAll answers ps tr qs ∧ (q = .join n qs k ∨ q = .crash ∧ ∃ i, qs i = .crash)) ∨
      ∃ rs front back, RunAll answers ps front (fun i => .ret (rs i)) ∧
        Run answers (k rs) back q ∧ tr = front ++ back := by
  induction h with
  | refl => exact .inl ⟨ps, .refl, .inl rfl⟩
  | @step tr evs q q' _ hstep ih =>
      rcases ih with ⟨qs, hqs, rfl | ⟨rfl, -⟩⟩ | ⟨rs, front, back, hfront, hback, rfl⟩
      · cases hstep with
        | child hchild => exact .inl ⟨_, hqs.step hchild, .inl rfl⟩
        | joined => exact .inr ⟨_, tr, [], hqs, .refl, rfl⟩
        | crashed hcrash => exact .inl ⟨qs, by simpa using hqs, .inr ⟨rfl, _, hcrash⟩⟩
      · cases hstep
      · exact .inr ⟨rs, front, _, hfront, hback.step hstep, by simp⟩

/-- A step is one where effects may be answered in more ways. -/
theorem Step.mono {answers' : (e : E) → A e → Prop} (hle : ∀ e a, answers e a → answers' e a)
    (h : Step answers p evs q) : Step answers' p evs q := by
  induction h with
  | call ha => exact .call (hle _ _ ha)
  | child _ ih => exact .child ih
  | joined => exact .joined
  | crashed hcrash => exact .crashed hcrash

/-- A run is one where effects may be answered in more ways. -/
theorem Run.mono {answers' : (e : E) → A e → Prop} (hle : ∀ e a, answers e a → answers' e a)
    (h : Run answers p tr q) : Run answers' p tr q := by
  induction h with
  | refl => exact .refl
  | step _ hstep ih => exact ih.step (hstep.mono hle)

/-- The effects of a step are answered. -/
theorem Step.answered (h : Step answers p evs q) : ∀ ev ∈ evs, answers ev.1 ev.2 := by
  induction h with
  | call ha =>
      intro ev hev
      obtain rfl := List.mem_singleton.mp hev
      exact ha
  | child _ ih => exact ih
  | joined => exact fun ev hev => nomatch hev
  | crashed _ => exact fun ev hev => nomatch hev

/-- The effects of a run are answered. -/
theorem Run.answered (h : Run answers p tr q) : ∀ ev ∈ tr, answers ev.1 ev.2 := by
  induction h with
  | refl => exact fun ev hev => nomatch hev
  | step _ hstep ih =>
      intro ev hev
      rcases List.mem_append.mp hev with hev | hev
      · exact ih ev hev
      · exact hstep.answered ev hev

/-- An effect that a program awaits. -/
def Prog.Awaits (e : E) : Prog E A R → Prop
  | .ret _ => False
  | .crash => False
  | .call e' _ => e' = e
  | .join _ ps _ => ∃ i, (ps i).Awaits e

/-- An effect that is awaited can be answered. -/
theorem Prog.Awaits.exists_step {e : E} (h : p.Awaits e) {a : A e} (ha : answers e a) :
    ∃ q, Step answers p [⟨e, a⟩] q := by
  induction p with
  | ret r => cases h
  | crash => cases h
  | call e' k ih =>
      obtain rfl : e' = e := h
      exact ⟨_, .call ha⟩
  | join n ps k ih _ =>
      obtain ⟨i, hi⟩ := h
      obtain ⟨q, hstep⟩ := ih i hi
      exact ⟨_, .child hstep⟩

/-- The effects that are answered in a step were awaited. -/
theorem Step.awaits (h : Step answers p evs q) {ev : Event E A} (hev : ev ∈ evs) :
    p.Awaits ev.1 := by
  induction h with
  | call _ =>
      obtain rfl := List.mem_singleton.mp hev
      rfl
  | child _ ih => exact ⟨_, ih hev⟩
  | joined => cases hev
  | crashed _ => cases hev

/-- A run comes to a state where an effect is awaited that is answered later. -/
theorem Run.exists_awaits (h : Run answers p tr q) {ev : Event E A} (hev : ev ∈ tr) :
    ∃ front back q', tr = front ++ back ∧ Run answers p front q' ∧ Run answers q' back q ∧
      q'.Awaits ev.1 := by
  induction h with
  | refl => cases hev
  | @step tr evs q q' hrun hstep ih =>
      rcases List.mem_append.mp hev with hev | hev
      · obtain ⟨front, back, r, rfl, hfront, hback, hawaits⟩ := ih hev
        exact ⟨front, back ++ evs, r, List.append_assoc _ _ _, hfront, hback.step hstep, hawaits⟩
      · exact ⟨tr, [] ++ evs, q, rfl, hrun, .step .refl hstep, hstep.awaits hev⟩

/-- Every effect that a program can await is like this. -/
def Prog.Calls (P : E → Prop) : Prog E A R → Prop
  | .ret _ => True
  | .crash => True
  | .call e k => P e ∧ ∀ a, (k a).Calls P
  | .join _ ps k => (∀ i, (ps i).Calls P) ∧ ∀ rs, (k rs).Calls P

/-- The effects of a step are those that the program can await. -/
theorem Step.calls {P : E → Prop} (h : Step answers p evs q) (hp : p.Calls P) :
    (∀ ev ∈ evs, P ev.1) ∧ q.Calls P := by
  induction h with
  | @call e k a ha =>
      refine ⟨fun ev hev => ?_, hp.2 a⟩
      obtain rfl := List.mem_singleton.mp hev
      exact hp.1
  | @child n ps k i evs p _ ih =>
      obtain ⟨hevs, hq⟩ := ih (hp.1 i)
      refine ⟨hevs, fun j => ?_, hp.2⟩
      by_cases hj : j = i
      · subst hj
        rw [Function.update_self]
        exact hq
      · rw [Function.update_of_ne hj]
        exact hp.1 j
  | joined => exact ⟨fun ev hev => (nomatch hev), hp.2 _⟩
  | crashed _ => exact ⟨fun ev hev => (nomatch hev), trivial⟩

/-- The effects of a run are those that the program can await. -/
theorem Run.calls {P : E → Prop} (h : Run answers p tr q) (hp : p.Calls P) :
    (∀ ev ∈ tr, P ev.1) ∧ q.Calls P := by
  induction h with
  | refl => exact ⟨fun ev hev => (nomatch hev), hp⟩
  | step _ hstep ih =>
      obtain ⟨htr, hq⟩ := ih
      obtain ⟨hevs, hq'⟩ := hstep.calls hq
      refine ⟨fun ev hev => ?_, hq'⟩
      rcases List.mem_append.mp hev with hev | hev
      · exact htr ev hev
      · exact hevs ev hev

/-! ## Termination -/

/-- Finitely many parts that can each change finitely often, one at a time, stop changing. -/
theorem acc_update {α : Type} {r : α → α → Prop} {n : ℕ} {xs : Fin n → α} (h : ∀ i, Acc r (xs i)) :
    Acc (fun ys zs => ∃ i y, r y (zs i) ∧ ys = Function.update zs i y) xs := by
  induction n with
  | zero =>
      refine ⟨_, ?_⟩
      rintro _ ⟨i, -⟩
      exact i.elim0
  | succ n ih =>
      have hpair := (h 0).prod_gameAdd (ih fun i => h i.succ)
      refine Subrelation.accessible ?_
        (InvImage.accessible (fun ys : Fin (n + 1) → α => (ys 0, Fin.tail ys)) hpair)
      rintro _ zs ⟨i, y, hy, rfl⟩
      cases i using Fin.cases with
      | zero => exact Prod.gameAdd_iff.mpr (.inl ⟨by simpa using hy, Fin.tail_update_zero zs y⟩)
      | succ i =>
          exact Prod.gameAdd_iff.mpr (.inr ⟨⟨i, y, hy, Fin.tail_update_succ zs i y⟩,
            Function.update_of_ne (Fin.succ_ne_zero i).symm y zs⟩)

/-- No program runs forever: an answer leads to a part of the program, and each of the joined
programs makes finitely many steps. -/
theorem acc_step (answers : (e : E) → A e → Prop) (p : Prog E A R) :
    Acc (fun q p => ∃ evs, Step answers p evs q) p := by
  have hcrash : Acc (fun q p => ∃ evs, Step answers p evs q) (.crash : Prog E A R) := by
    refine ⟨_, ?_⟩
    rintro _ ⟨_, ⟨⟩⟩
  induction p with
  | ret r =>
      refine ⟨_, ?_⟩
      rintro _ ⟨_, ⟨⟩⟩
  | crash => exact hcrash
  | call e k ih =>
      refine ⟨_, ?_⟩
      rintro _ ⟨_, ⟨⟩⟩
      exact ih _
  | join n ps k ihps ihk =>
      have hacc := acc_update ihps
      clear ihps
      induction hacc with
      | intro ps _ ih =>
          refine ⟨_, ?_⟩
          rintro _ ⟨evs, hstep⟩
          cases hstep with
          | child hchild => exact ih _ ⟨_, _, ⟨_, hchild⟩, rfl⟩
          | joined => exact ihk _
          | crashed _ => exact hcrash

/-- A program that has not ended can make a step, if there is an answer to every effect. -/
theorem exists_step (hanswers : ∀ e, ∃ a, answers e a) (p : Prog E A R) :
    p.Final ∨ ∃ evs q, Step answers p evs q := by
  induction p with
  | ret r => exact .inl (.inr ⟨r, rfl⟩)
  | crash => exact .inl (.inl rfl)
  | call e k =>
      obtain ⟨a, ha⟩ := hanswers e
      exact .inr ⟨_, _, .call ha⟩
  | join n ps k ih =>
      refine .inr ?_
      by_cases hreturned : ∀ i, ∃ r, ps i = .ret r
      · choose rs hrs using hreturned
        obtain rfl := funext hrs
        exact ⟨_, _, .joined⟩
      · obtain ⟨i, hi⟩ := not_forall.mp hreturned
        rcases ih i with (hcrash | hret) | ⟨evs, q, hstep⟩
        · exact ⟨_, _, .crashed hcrash⟩
        · exact absurd hret hi
        · exact ⟨_, _, .child hstep⟩

/-- A run that starts with a step. -/
theorem Run.head {q' : Prog E A R} (hstep : Step answers p evs q) (h : Run answers q tr q') :
    Run answers p (evs ++ tr) q' := by
  induction h with
  | refl => simpa using Run.refl.step hstep
  | step _ hstep' ih => simpa using ih.step hstep'

/-- Every program can be run to its end. -/
theorem exists_run_final (hanswers : ∀ e, ∃ a, answers e a) (p : Prog E A R) :
    ∃ tr q, Run answers p tr q ∧ q.Final := by
  have hacc := acc_step answers p
  induction hacc with
  | intro p _ ih =>
      rcases exists_step hanswers p with hfinal | ⟨evs, q, hstep⟩
      · exact ⟨[], p, .refl, hfinal⟩
      · obtain ⟨tr, q', hrun, hfinal⟩ := ih q ⟨evs, hstep⟩
        exact ⟨evs ++ tr, q', .head hstep hrun, hfinal⟩

/-! ## Specifications -/

/-- What a program promises: about its events at any time, about its events and its result when it
returns, and about its events when it crashes. -/
structure Spec (E : Type) (A : E → Type) (R : Type) where
  always : List (Event E A) → Prop
  returns : List (Event E A) → R → Prop
  crashes : List (Event E A) → Prop

/-- What is left of a specification after some events. -/
def Spec.after (spec : Spec E A R) (tr : List (Event E A)) : Spec E A R where
  always rest := spec.always (tr ++ rest)
  returns rest := spec.returns (tr ++ rest)
  crashes rest := spec.crashes (tr ++ rest)

@[simp] theorem Spec.after_after (spec : Spec E A R) (tr tr' : List (Event E A)) :
    (spec.after tr).after tr' = spec.after (tr ++ tr') := by
  simp only [Spec.after, List.append_assoc]

variable (answers) in
/-- Every run of a program is as it is specified. -/
def Meets (p : Prog E A R) (spec : Spec E A R) : Prop :=
  ∀ tr q, Run answers p tr q →
    spec.always tr ∧ (∀ r, q = .ret r → spec.returns tr r) ∧ (q = .crash → spec.crashes tr)

variable {spec : Spec E A R}

/-- A program that returns after some events. -/
theorem meets_ret {r : R} (halways : spec.always tr) (hreturns : spec.returns tr r) :
    Meets answers (.ret r) (spec.after tr) := by
  intro rest q h
  obtain ⟨rfl, rfl⟩ := h.of_final (.inr ⟨r, rfl⟩)
  simp only [Spec.after, List.append_nil]
  refine ⟨halways, ?_, nofun⟩
  rintro _ ⟨⟩
  exact hreturns

/-- A program that crashes after some events. -/
theorem meets_crash (halways : spec.always tr) (hcrashes : spec.crashes tr) :
    Meets answers .crash (spec.after tr) := by
  intro rest q h
  obtain ⟨rfl, rfl⟩ := h.of_final (.inl rfl)
  simp only [Spec.after, List.append_nil]
  exact ⟨halways, nofun, fun _ => hcrashes⟩

/-- A program that awaits an effect after some events goes on with every answer. -/
theorem meets_call {e : E} {k : A e → Prog E A R} (halways : spec.always tr)
    (hk : ∀ a, answers e a → Meets answers (k a) (spec.after (tr ++ [⟨e, a⟩]))) :
    Meets answers (.call e k) (spec.after tr) := by
  intro rest q h
  rcases h.of_call with ⟨rfl, rfl⟩ | ⟨a, rest, ha, rfl, hrest⟩
  · simp only [Spec.after, List.append_nil]
    exact ⟨halways, nofun, nofun⟩
  · have hspec := hk a ha rest q hrest
    rw [← Spec.after_after] at hspec
    exact hspec

/-- Joined programs take turns, and the results of all of them are used. -/
theorem meets_join {n : ℕ} {ps : Fin n → Prog E A R} {k : (Fin n → R) → Prog E A R}
    (specs : Fin n → Spec E A R) (hps : ∀ i, Meets answers (ps i) (specs i))
    (halways : ∀ trs tr, (∀ i, (specs i).always (trs i)) → Interleaves trs tr → spec.always tr)
    (hcrashes : ∀ trs tr i, (∀ i, (specs i).always (trs i)) → (specs i).crashes (trs i) →
      Interleaves trs tr → spec.crashes tr)
    (hk : ∀ trs tr rs, (∀ i, (specs i).always (trs i)) →
      (∀ i, (specs i).returns (trs i) (rs i)) → Interleaves trs tr →
        Meets answers (k rs) (spec.after tr)) : Meets answers (.join n ps k) spec := by
  intro tr q h
  rcases h.of_join with ⟨qs, hqs, hq⟩ | ⟨rs, front, back, hfront, hback, rfl⟩
  · obtain ⟨trs, hruns, htrs⟩ := hqs.exists_runs
    have hspecs (i : Fin n) := hps i _ _ (hruns i)
    refine ⟨halways trs tr (fun i => (hspecs i).1) htrs, ?_, ?_⟩
    · rintro r rfl
      rcases hq with hq | ⟨hq, -⟩ <;> cases hq
    · rintro rfl
      obtain hq | ⟨-, i, hcrash⟩ := hq
      · cases hq
      · exact hcrashes trs tr i (fun i => (hspecs i).1) ((hspecs i).2.2 hcrash) htrs
  · obtain ⟨trs, hruns, htrs⟩ := hfront.exists_runs
    have hspecs (i : Fin n) := hps i _ _ (hruns i)
    exact hk trs front rs (fun i => (hspecs i).1) (fun i => (hspecs i).2.1 _ rfl) htrs back q hback

/-! ## Joining over a list -/

/-- Joins one program for each element of a list. -/
def joinAll {α : Type} (xs : List α) (f : α → Prog E A R) (k : List R → Prog E A R) : Prog E A R :=
  .join xs.length (fun i => f (xs.get i)) fun rs => k (List.ofFn rs)

/-- Joining nothing goes on without results. -/
theorem step_joinAll_nil {α : Type} {f : α → Prog E A R} {k : List R → Prog E A R} :
    Step answers (joinAll [] f k) [] (k []) := by
  have hnone : (fun i => f (([] : List α).get i)) = fun i => .ret (Fin.elim0 i) :=
    funext fun i => i.elim0
  rw [joinAll, hnone]
  exact .joined

/-- Programs joined over a list take turns. Their events keep to a guard if the guard only asks for
what has happened, and the results come in the order of the list. -/
theorem meets_joinAll {α : Type} {xs : List α} {f : α → Prog E A R} {k : List R → Prog E A R}
    (guard : List (Event E A) → Event E A → Prop) (specs : α → Spec E A R)
    (hmono : ∀ before before' x, before ⊆ before' → guard before x → guard before' x)
    (hspecs : ∀ x, (specs x).always = Guarded guard)
    (hf : ∀ x ∈ xs, Meets answers (f x) (specs x))
    (halways : ∀ tr, Guarded guard tr → spec.always tr)
    (hcrashes : ∀ x ∈ xs, ∀ own tr, (specs x).crashes own → spec.crashes tr)
    (hk : ∀ (outcomes : List (List (Event E A) × R)) tr,
      List.Forall₂ (fun x outcome => (specs x).returns outcome.1 outcome.2) xs outcomes →
      tr.Perm (outcomes.map Prod.fst).flatten → Guarded guard tr →
        Meets answers (k (outcomes.map Prod.snd)) (spec.after tr)) :
    Meets answers (joinAll xs f k) spec := by
  have hguarded {trs : Fin xs.length → List (Event E A)} {tr : List (Event E A)}
      (hown : ∀ i, (specs (xs.get i)).always (trs i)) (htr : Interleaves trs tr) :
      Guarded guard tr := by
    refine htr.guarded hmono fun i => ?_
    rw [← hspecs]
    exact hown i
  refine meets_join (fun i => specs (xs.get i)) (fun i => hf _ (xs.get_mem i))
    (fun trs tr hown htr => halways tr (hguarded hown htr))
    (fun trs tr i _ hcrash _ => hcrashes _ (xs.get_mem i) _ tr hcrash)
    fun trs tr rs hown hreturns htr => ?_
  have houtcomes : List.Forall₂ (fun x outcome => (specs x).returns outcome.1 outcome.2) xs
      (List.ofFn fun i => (trs i, rs i)) := by
    rw [List.forall₂_iff_get]
    refine ⟨by simp, fun i hi _ => ?_⟩
    simpa using hreturns ⟨i, hi⟩
  have hk := hk _ tr houtcomes
  simp only [List.map_ofFn] at hk
  exact hk htr.perm (hguarded hown htr)

/-! ## Going on with other effects -/

section FollowedBy

variable {F : Type} {B : F → Type}

/-- What effects of two kinds are answered with. -/
def eitherAnswers (answers : (e : E) → A e → Prop) (others : (e : F) → B e → Prop) :
    (e : E ⊕ F) → Sum.elim A B e → Prop
  | .inl e, a => answers e a
  | .inr e, a => others e a

/-- Goes on with the result of a program, with effects of another kind. -/
def Prog.followedBy :
    Prog E A R → (R → Prog (E ⊕ F) (Sum.elim A B) R) → Prog (E ⊕ F) (Sum.elim A B) R
  | .ret r, f => f r
  | .crash, _ => .crash
  | .call e k, f => .call (.inl e) fun (a : A e) => (k a).followedBy f
  | .join n ps k, f => .join n (fun i => (ps i).followedBy .ret) fun rs => (k rs).followedBy f

/-- The events of the first kind. -/
def leftEvents (tr : List (Event (E ⊕ F) (Sum.elim A B))) : List (Event E A) :=
  tr.filterMap fun
    | ⟨.inl e, a⟩ => some ⟨e, a⟩
    | ⟨.inr _, _⟩ => none

/-- A memory that only events of the first kind change. -/
def applyLeft {σ : Type} (apply : σ → Event E A → σ) :
    σ → Event (E ⊕ F) (Sum.elim A B) → σ
  | memory, ⟨.inl e, a⟩ => apply memory ⟨e, a⟩
  | memory, ⟨.inr _, _⟩ => memory

/-- Only the events of the first kind change the memory. -/
theorem foldl_applyLeft {σ : Type} (apply : σ → Event E A → σ) (memory : σ)
    (tr : List (Event (E ⊕ F) (Sum.elim A B))) :
    tr.foldl (applyLeft apply) memory = (leftEvents tr).foldl apply memory := by
  induction tr generalizing memory with
  | nil => rfl
  | cons ev tr ih =>
      obtain ⟨e, a⟩ := ev
      cases e with
      | inl e => exact ih _
      | inr e => exact ih _

@[simp] theorem leftEvents_append (tr tr' : List (Event (E ⊕ F) (Sum.elim A B))) :
    leftEvents (tr ++ tr') = leftEvents tr ++ leftEvents tr' :=
  List.filterMap_append

variable {others : (e : F) → B e → Prop} {f : R → Prog (E ⊕ F) (Sum.elim A B) R}
  {evs' : List (Event (E ⊕ F) (Sum.elim A B))} {q' : Prog (E ⊕ F) (Sum.elim A B) R}

/-- An event of the first kind. -/
def Event.left (ev : Event E A) : Event (E ⊕ F) (Sum.elim A B) :=
  ⟨.inl ev.1, ev.2⟩

/-- The events of the first kind are events. -/
theorem left_mem_of_mem {ev : Event E A} {tr : List (Event (E ⊕ F) (Sum.elim A B))}
    (h : ev ∈ leftEvents tr) : ev.left ∈ tr := by
  obtain ⟨⟨e, a⟩, hmem, hev⟩ := List.mem_filterMap.mp h
  cases e with
  | inl e =>
      cases hev
      exact hmem
  | inr e => cases hev

/-- Events of the first kind are of the first kind. -/
theorem leftEvents_map_left (tr : List (Event E A)) :
    leftEvents (tr.map (Event.left : _ → Event (E ⊕ F) (Sum.elim A B))) = tr := by
  induction tr with
  | nil => rfl
  | cons ev tr ih => exact congrArg (ev :: ·) ih

/-- What a program awaits is awaited when something goes on with its result. -/
theorem Prog.Awaits.followedBy {e : E} (h : p.Awaits e) : (p.followedBy f).Awaits (.inl e) := by
  induction p generalizing f with
  | ret r => cases h
  | crash => cases h
  | call e' k ih =>
      obtain rfl : e' = e := h
      rfl
  | join n ps k ih _ =>
      obtain ⟨i, hi⟩ := h
      exact ⟨i, ih i hi⟩

/-- The steps of a program are steps of what goes on with its result. -/
theorem Step.followedBy (h : Step answers p evs q) :
    Step (eitherAnswers answers others) (p.followedBy f) (evs.map Event.left)
      (q.followedBy f) := by
  induction h generalizing f with
  | call ha => exact .call ha
  | @child n ps k i evs p _ ih =>
      have hupdate : (fun j => (Function.update ps i p j).followedBy .ret) =
          Function.update (fun j => (ps j).followedBy .ret) i
            (p.followedBy (.ret : R → Prog (E ⊕ F) (Sum.elim A B) R)) :=
        Function.comp_update (fun q => Prog.followedBy q Prog.ret) ps i p
      have hjoin : (Prog.join n (Function.update ps i p) k).followedBy f =
          .join n (fun j => (Function.update ps i p j).followedBy .ret)
            fun rs => (k rs).followedBy f := rfl
      rw [hjoin, hupdate]
      exact .child ih
  | joined => exact .joined
  | @crashed n ps k i hcrash =>
      refine .crashed (i := i) ?_
      rw [hcrash]
      rfl

/-- The runs of programs are runs of what goes on with their results. -/
theorem RunAll.followedBy {fs : ι → R → Prog (E ⊕ F) (Sum.elim A B) R} {tr : List (Event E A)}
    (h : RunAll answers ps tr qs) :
    RunAll (eitherAnswers answers others) (fun i => (ps i).followedBy (fs i)) (tr.map Event.left)
      fun i => (qs i).followedBy (fs i) := by
  induction h with
  | refl => exact .refl
  | @step tr evs qs i q _ hstep ih =>
      have hupdate : (fun j => (Function.update qs i q j).followedBy (fs j)) =
          Function.update (fun j => (qs j).followedBy (fs j)) i (q.followedBy (fs i)) :=
        funext (Function.apply_update (fun j q => Prog.followedBy q (fs j)) qs i q)
      rw [List.map_append, hupdate]
      exact ih.step hstep.followedBy

/-- Only a program that has crashed has crashed when it goes on by returning. -/
theorem Prog.eq_crash_of_followedBy
    (h : p.followedBy (Prog.ret : R → Prog (E ⊕ F) (Sum.elim A B) R) = .crash) : p = .crash := by
  cases p with
  | crash => rfl
  | ret r => cases h
  | call e k => cases h
  | join n ps k => cases h

/-- Only a program that has returned has returned when it goes on by returning. -/
theorem Prog.eq_ret_of_followedBy {r : R}
    (h : p.followedBy (Prog.ret : R → Prog (E ⊕ F) (Sum.elim A B) R) = .ret r) : p = .ret r := by
  cases p with
  | ret r' =>
      cases h
      rfl
  | crash => cases h
  | call e k => cases h
  | join n ps k => cases h

/-- Until a program has returned, its steps are what it does. -/
theorem Step.of_followedBy
    (h : Step (eitherAnswers answers others) (p.followedBy f) evs' q') (hp : ∀ r, p ≠ .ret r) :
    ∃ q, q' = q.followedBy f ∧ Step answers p (leftEvents evs') q := by
  obtain ⟨p', hp'⟩ : ∃ p', p' = p.followedBy f := ⟨_, rfl⟩
  rw [← hp'] at h
  induction h generalizing p f with
  | call ha =>
      cases p with
      | ret r => exact absurd rfl (hp r)
      | crash => cases hp'
      | call e k =>
          cases hp'
          exact ⟨_, rfl, .call ha⟩
      | join n ps k => cases hp'
  | @child n qs k' i evs q hchild ih =>
      cases p with
      | ret r => exact absurd rfl (hp r)
      | crash => cases hp'
      | call e k => cases hp'
      | join n ps k =>
          cases hp'
          have hchild : Step (eitherAnswers answers others) ((ps i).followedBy .ret) evs q := hchild
          have hi (r : R) : ps i ≠ .ret r := by
            intro hret
            rw [hret] at hchild
            cases hchild
          obtain ⟨q', rfl, hstep⟩ := ih hi rfl
          refine ⟨_, ?_, .child hstep⟩
          exact congrArg (fun qs => Prog.join n qs _)
            (Function.comp_update (fun p => Prog.followedBy p Prog.ret) ps i q').symm
  | @joined n rs k' =>
      cases p with
      | ret r => exact absurd rfl (hp r)
      | crash => cases hp'
      | call e k => cases hp'
      | join n ps k =>
          obtain ⟨rfl, hps, hk⟩ := Prog.join.inj hp'
          have hps := eq_of_heq hps
          obtain rfl := eq_of_heq hk
          have hret (i : Fin n) : ps i = .ret (rs i) :=
            Prog.eq_ret_of_followedBy (congrFun hps i).symm
          obtain rfl := funext hret
          exact ⟨_, rfl, .joined⟩
  | @crashed n qs k' i hcrash =>
      cases p with
      | ret r => exact absurd rfl (hp r)
      | crash => cases hp'
      | call e k => cases hp'
      | join n ps k =>
          cases hp'
          refine ⟨.crash, rfl, .crashed (i := i) ?_⟩
          exact Prog.eq_crash_of_followedBy hcrash

/-- A step of what goes on with the result of a program is one of the program, or it comes after the
program has returned and awaits no effects of the first kind. -/
theorem Step.of_goesOn {r r' : Prog (E ⊕ F) (Sum.elim A B) R}
    (hf : ∀ result evs q evs' q', Run (eitherAnswers answers others) (f result) evs q →
      Step (eitherAnswers answers others) q evs' q' → leftEvents evs' = [])
    (hr : r = p.followedBy f ∨ ∃ result evs, p = .ret result ∧
      Run (eitherAnswers answers others) (f result) evs r)
    (h : Step (eitherAnswers answers others) r evs' r') :
    ∃ q, (Step answers p (leftEvents evs') q ∨ leftEvents evs' = [] ∧ q = p) ∧
      (r' = q.followedBy f ∨ ∃ result evs, q = .ret result ∧
        Run (eitherAnswers answers others) (f result) evs r') := by
  by_cases hreturned : ∃ result, p = .ret result
  · obtain ⟨result, rfl⟩ := hreturned
    have hafter : ∃ evs, Run (eitherAnswers answers others) (f result) evs r := by
      rcases hr with rfl | ⟨result', evs, hret, hrun⟩
      · exact ⟨[], .refl⟩
      · cases hret
        exact ⟨evs, hrun⟩
    obtain ⟨evs, hafter⟩ := hafter
    exact ⟨_, .inr ⟨hf result _ _ _ _ hafter h, rfl⟩, .inr ⟨result, _, rfl, hafter.step h⟩⟩
  · obtain rfl : r = p.followedBy f :=
      hr.resolve_right fun ⟨result, _, hret, _⟩ => hreturned ⟨result, hret⟩
    obtain ⟨q, rfl, hstep⟩ := h.of_followedBy fun result hret => hreturned ⟨result, hret⟩
    exact ⟨q, .inl hstep, .inl rfl⟩

/-- A program that goes on after it has returned makes a run of its own until then, if what comes
afterwards awaits effects of the other kind only. -/
theorem Run.of_followedBy {tr' : List (Event (E ⊕ F) (Sum.elim A B))}
    (hf : ∀ result evs q evs' q', Run (eitherAnswers answers others) (f result) evs q →
      Step (eitherAnswers answers others) q evs' q' → leftEvents evs' = [])
    (h : Run (eitherAnswers answers others) (p.followedBy f) tr' q') :
    ∃ q, Run answers p (leftEvents tr') q ∧
      (q' = q.followedBy f ∨ ∃ result evs, q = .ret result ∧
        Run (eitherAnswers answers others) (f result) evs q') := by
  induction h with
  | refl => exact ⟨p, .refl, .inl rfl⟩
  | @step tr evs r r' _ hstep ih =>
      obtain ⟨q, hrun, hr⟩ := ih
      obtain ⟨q', hq, hr'⟩ := hstep.of_goesOn hf hr
      refine ⟨q', ?_, hr'⟩
      rw [leftEvents_append]
      rcases hq with hq | ⟨hnone, rfl⟩
      · exact hrun.step hq
      · rw [hnone, List.append_nil]
        exact hrun

/-- Programs that go on after they have returned make runs of their own until then, if what comes
afterwards awaits effects of the other kind only. -/
theorem RunAll.of_followedBy {fs : ι → R → Prog (E ⊕ F) (Sum.elim A B) R}
    {tr' : List (Event (E ⊕ F) (Sum.elim A B))} {qs' : ι → Prog (E ⊕ F) (Sum.elim A B) R}
    (hfs : ∀ i r evs q evs' q', Run (eitherAnswers answers others) (fs i r) evs q →
      Step (eitherAnswers answers others) q evs' q' → leftEvents evs' = [])
    (h : RunAll (eitherAnswers answers others) (fun i => (ps i).followedBy (fs i)) tr' qs') :
    ∃ qs, RunAll answers ps (leftEvents tr') qs ∧
      ∀ i, qs' i = (qs i).followedBy (fs i) ∨
        ∃ r evs, qs i = .ret r ∧ Run (eitherAnswers answers others) (fs i r) evs (qs' i) := by
  induction h with
  | refl => exact ⟨ps, .refl, fun i => .inl rfl⟩
  | @step tr evs qs' i r' _ hstep ih =>
      obtain ⟨qs, hrun, hqs⟩ := ih
      obtain ⟨q, hq, hr'⟩ := hstep.of_goesOn (hfs i) (hqs i)
      refine ⟨Function.update qs i q, ?_, fun j => ?_⟩
      · rw [leftEvents_append]
        rcases hq with hq | ⟨hnone, rfl⟩
        · exact hrun.step hq
        · rw [hnone, List.append_nil, Function.update_eq_self]
          exact hrun
      · by_cases hj : j = i
        · subst hj
          rw [Function.update_self, Function.update_self]
          exact hr'
        · rw [Function.update_of_ne hj, Function.update_of_ne hj]
          exact hqs j

end FollowedBy

end Async
