import WorldcoinAggregation.Base.Async
import Mathlib.Algebra.BigOperators.Fin
import Mathlib.Algebra.Order.BigOperators.Group.Finset

/-!
# Machines that carry out effects

An effect that a program awaits is carried out by a machine. The machines of all programs share
resources, such as the permits of a semaphore or a lock, and read a memory that events change. A
machine that is dropped gives back what it holds.

The resources are conserved (`conserved_of_reaches`), and what the programs do is a run of theirs
where effects are answered at once (`exists_runAll`). Machines take notes of their work, and an
effect that is answered was carried out, with these notes, after the program had come to await it
(`Runs.carried`). Machines that do not wait for resources while they hold some do not block each
other: from every state that is reached, all programs can be run to their ends (`exists_final`).
-/

namespace Async

variable {E N R ρ σ : Type} {A : E → Type}

/-- Machines that carry out effects. A machine starts without resources, works in steps that may
take resources and give them back, and ends with an answer. It may read the memory, and it takes
notes of its steps. -/
structure Machines (E : Type) (A : E → Type) (N ρ σ : Type) where
  Phase : E → Type
  start : (e : E) → Phase e
  held : (e : E) → Phase e → ρ → ℕ
  work : (e : E) → σ → Phase e → List N → Phase e → Prop
  answer : (e : E) → σ → Phase e → A e → Prop
  held_start : ∀ e r, held e (start e) r = 0

/-- A program whose effects are under way. -/
inductive Live (Phase : E → Type) (A : E → Type) (R : Type) : Type where
  | ret (r : R)
  | crash
  | running (e : E) (phase : Phase e) (k : A e → Prog E A R)
  | join (n : ℕ) (ps : Fin n → Live Phase A R) (k : (Fin n → R) → Prog E A R)

variable {Phase : E → Type}

/-- What a program does: the machine of an effect takes a note, or an effect is answered. -/
inductive Deed (E : Type) (A : E → Type) (N : Type) where
  | noted (e : E) (note : N)
  | answered (ev : Event E A)

/-- The event of a deed. -/
def Deed.event : Deed E A N → Option (Event E A)
  | .noted _ _ => none
  | .answered ev => some ev

/-- The events among deeds. -/
def events (deeds : List (Deed E A N)) : List (Event E A) :=
  deeds.filterMap Deed.event

@[simp] theorem events_append (deeds deeds' : List (Deed E A N)) :
    events (deeds ++ deeds') = events deeds ++ events deeds' :=
  List.filterMap_append

/-- The events among deeds are deeds. -/
theorem answered_mem_of_mem {ev : Event E A} {deeds : List (Deed E A N)} (h : ev ∈ events deeds) :
    .answered ev ∈ deeds := by
  obtain ⟨deed, hmem, hev⟩ := List.mem_filterMap.mp h
  cases deed with
  | noted e note => cases hev
  | answered ev' =>
      cases hev
      exact hmem

/-- Notes are no events. -/
@[simp] theorem events_noted (e : E) (notes : List N) :
    events (notes.map (.noted e : N → Deed E A N)) = [] := by
  simp [events, Deed.event]

/-- The program that is under way. -/
def Live.prog : Live Phase A R → Prog E A R
  | .ret r => .ret r
  | .crash => .crash
  | .running e _ k => .call e k
  | .join n ps k => .join n (fun i => (ps i).prog) k

/-- A program that is under way and has ended. -/
def Live.Final (p : Live Phase A R) : Prop :=
  p = .crash ∨ ∃ r, p = .ret r

/-- Every machine of a program is in a phase like this. -/
def Live.All (inv : (e : E) → Phase e → Prop) : Live Phase A R → Prop
  | .ret _ => True
  | .crash => True
  | .running e phase _ => inv e phase
  | .join _ ps _ => ∀ i, (ps i).All inv

/-- Machines in a phase like this are in a phase like that. -/
theorem Live.All.mono {inv inv' : (e : E) → Phase e → Prop} {p : Live Phase A R} (h : p.All inv)
    (hinv : ∀ e phase, inv e phase → inv' e phase) : p.All inv' := by
  induction p with
  | ret _ => trivial
  | crash => trivial
  | running e phase k => exact hinv e phase h
  | join n ps k ih => exact fun i => ih i (h i)

/-- A measure of the machines of a program, summed up. -/
def Live.total (measure : (e : E) → Phase e → ℕ) : Live Phase A R → ℕ
  | .ret _ => 0
  | .crash => 0
  | .running e phase _ => measure e phase
  | .join _ ps _ => ∑ i, (ps i).total measure

namespace Machines

variable (machines : Machines E A N ρ σ)

/-- A program gets under way: the effects it awaits are started. -/
def launch : Prog E A R → Live machines.Phase A R
  | .ret r => .ret r
  | .crash => .crash
  | .call e k => .running e (machines.start e) k
  | .join n ps k => .join n (fun i => launch (ps i)) k

/-- What the machines of a program hold. -/
def holds (p : Live machines.Phase A R) (r : ρ) : ℕ :=
  p.total fun e phase => machines.held e phase r

/-- One step of a program under way, with what is free of the resources before and after it. A
machine works with what it holds and what is free. It gives everything back with its answer, and so
do all machines of joined programs when one of the programs crashes. -/
inductive Step (memory : σ) : Live machines.Phase A R → (ρ → ℕ) → List (Deed E A N) →
    Live machines.Phase A R → (ρ → ℕ) → Prop where
  | work {e : E} {phase phase' : machines.Phase e} {k : A e → Prog E A R} {free : ρ → ℕ}
      {notes : List N} (hwork : machines.work e memory phase notes phase')
      (hfree : ∀ r, machines.held e phase' r ≤ free r + machines.held e phase r) :
      Step memory (.running e phase k) free (notes.map (.noted e)) (.running e phase' k)
        fun r => free r + machines.held e phase r - machines.held e phase' r
  | answer {e : E} {phase : machines.Phase e} {k : A e → Prog E A R} {free : ρ → ℕ} {a : A e}
      (hanswer : machines.answer e memory phase a) :
      Step memory (.running e phase k) free [.answered ⟨e, a⟩] (machines.launch (k a))
        fun r => free r + machines.held e phase r
  | child {n : ℕ} {ps : Fin n → Live machines.Phase A R} {k : (Fin n → R) → Prog E A R} {i : Fin n}
      {free free' : ρ → ℕ} {deeds : List (Deed E A N)} {p : Live machines.Phase A R}
      (h : Step memory (ps i) free deeds p free') :
      Step memory (.join n ps k) free deeds (.join n (Function.update ps i p) k) free'
  | joined {n : ℕ} {rs : Fin n → R} {k : (Fin n → R) → Prog E A R} {free : ρ → ℕ} :
      Step memory (.join n (fun i => .ret (rs i)) k) free [] (machines.launch (k rs)) free
  | crashed {n : ℕ} {ps : Fin n → Live machines.Phase A R} {k : (Fin n → R) → Prog E A R}
      {i : Fin n} {free : ρ → ℕ} (h : ps i = .crash) :
      Step memory (.join n ps k) free [] .crash
        fun r => free r + machines.holds (.join n ps k) r

end Machines

/-- Programs that are under way, what is free of the resources they share, and the memory. -/
structure World (Phase : E → Type) (A : E → Type) (R ρ σ : Type) (count : ℕ) where
  lives : Fin count → Live Phase A R
  free : ρ → ℕ
  memory : σ

namespace Machines

variable {count : ℕ} (machines : Machines E A N ρ σ) (apply : σ → Event E A → σ)

/-- One of the programs makes a step, and the memory changes with its events. -/
inductive WorldStep : World machines.Phase A R ρ σ count → World machines.Phase A R ρ σ count → Prop
  | step {w : World machines.Phase A R ρ σ count} {i : Fin count} {deeds : List (Deed E A N)}
      {p : Live machines.Phase A R} {free : ρ → ℕ}
      (h : machines.Step w.memory (w.lives i) w.free deeds p free) :
      WorldStep w ⟨Function.update w.lives i p, free, (events deeds).foldl apply w.memory⟩

/-- The programs can get from one state to another by taking turns. -/
def Reaches : World machines.Phase A R ρ σ count → World machines.Phase A R ρ σ count → Prop :=
  Relation.ReflTransGen (machines.WorldStep apply)

/-- All programs have just got under way, and all resources are free. -/
def initial (capacity : ρ → ℕ) (memory : σ) (ps : Fin count → Prog E A R) :
    World machines.Phase A R ρ σ count :=
  ⟨fun i => machines.launch (ps i), capacity, memory⟩

/-- The states that the programs come to by taking turns, with what each of them has done. -/
inductive Runs (capacity : ρ → ℕ) (memory : σ) (ps : Fin count → Prog E A R) :
    (Fin count → List (Deed E A N)) → World machines.Phase A R ρ σ count → Prop where
  | init : Runs capacity memory ps (fun _ => []) (machines.initial capacity memory ps)
  | step {logs : Fin count → List (Deed E A N)} {w : World machines.Phase A R ρ σ count}
      {i : Fin count} {deeds : List (Deed E A N)} {p : Live machines.Phase A R} {free : ρ → ℕ}
      (h : Runs capacity memory ps logs w)
      (hstep : machines.Step w.memory (w.lives i) w.free deeds p free) :
      Runs capacity memory ps (Function.update logs i (logs i ++ deeds))
        ⟨Function.update w.lives i p, free, (events deeds).foldl apply w.memory⟩

end Machines

variable {machines : Machines E A N ρ σ} {apply : σ → Event E A → σ} {memory : σ} {count : ℕ}
  {p p' : Live machines.Phase A R} {free free' : ρ → ℕ} {deeds : List (Deed E A N)}
  {w w' : World machines.Phase A R ρ σ count} {capacity : ρ → ℕ} {ps : Fin count → Prog E A R}
  {logs : Fin count → List (Deed E A N)}

/-- What the programs can come to is what they come to with something done. -/
theorem Machines.reaches_iff_exists_runs :
    machines.Reaches apply (machines.initial capacity memory ps) w ↔
      ∃ logs, machines.Runs apply capacity memory ps logs w := by
  constructor
  · intro h
    induction h with
    | refl => exact ⟨_, .init⟩
    | tail _ hstep ih =>
        obtain ⟨logs, hruns⟩ := ih
        cases hstep with
        | step hstep => exact ⟨_, hruns.step hstep⟩
  · rintro ⟨logs, h⟩
    induction h with
    | init => exact .refl
    | step _ hstep ih => exact ih.tail (.step hstep)

/-- A sum changes with the part that changes. -/
theorem sum_update_add {α : Type} {n : ℕ} (f : Fin n → α) (g : α → ℕ) (i : Fin n) (x : α) :
    (∑ j, g (Function.update f i x j)) + g (f i) = (∑ j, g (f j)) + g x := by
  have hrest : ∑ j ∈ Finset.univ.erase i, g (Function.update f i x j) =
      ∑ j ∈ Finset.univ.erase i, g (f j) := by
    refine Finset.sum_congr rfl fun j hj => ?_
    rw [Function.update_of_ne (Finset.ne_of_mem_erase hj)]
  rw [← Finset.add_sum_erase _ _ (Finset.mem_univ i), hrest, Function.update_self,
    ← Finset.add_sum_erase _ (fun j => g (f j)) (Finset.mem_univ i)]
  omega

/-! ## Resources -/

namespace Machines

/-- Nothing is held for a result. -/
@[simp] theorem holds_ret (result : R) (r : ρ) : machines.holds (.ret result) r = 0 :=
  rfl

/-- Joined programs hold what each of them holds. -/
@[simp] theorem holds_join {n : ℕ} (ps : Fin n → Live machines.Phase A R)
    (k : (Fin n → R) → Prog E A R) (r : ρ) :
    machines.holds (.join n ps k) r = ∑ i, machines.holds (ps i) r :=
  rfl

/-- What has just got under way holds nothing. -/
@[simp] theorem holds_launch (q : Prog E A R) (r : ρ) :
    machines.holds (machines.launch q) r = 0 := by
  induction q with
  | ret _ => rfl
  | crash => rfl
  | call e k _ => exact machines.held_start e r
  | join n ps k ih _ =>
      show ∑ i, machines.holds (machines.launch (ps i)) r = 0
      exact Finset.sum_eq_zero fun i _ => ih i

/-- A step conserves the resources. -/
theorem Step.conserved (h : machines.Step memory p free deeds p' free') (r : ρ) :
    free' r + machines.holds p' r = free r + machines.holds p r := by
  induction h with
  | work _ hfree =>
      have hle := hfree r
      show _ - _ + machines.held _ _ r = _ + machines.held _ _ r
      omega
  | answer _ =>
      rw [holds_launch]
      rfl
  | @child n ps k i free free' deeds p _ ih =>
      have hsum := sum_update_add ps (fun q => machines.holds q r) i p
      rw [holds_join, holds_join]
      omega
  | joined => simp
  | crashed _ => rfl

/-- Taking turns conserves the resources. -/
theorem conserved_of_reaches (h : machines.Reaches apply w w') (r : ρ) :
    w'.free r + ∑ i, machines.holds (w'.lives i) r =
      w.free r + ∑ i, machines.holds (w.lives i) r := by
  induction h with
  | refl => rfl
  | @tail w _ _ hstep ih =>
      cases hstep with
      | @step i deeds p free hstep =>
          have hsum := sum_update_add w.lives (fun q => machines.holds q r) i p
          have hconserved := hstep.conserved r
          show free r + ∑ j, machines.holds (Function.update w.lives i p j) r = _
          omega

/-- What two programs hold is there for both of them. -/
theorem holds_add_le (hconserved : ∀ r, w.free r + ∑ i, machines.holds (w.lives i) r = capacity r)
    {i j : Fin count} (hne : i ≠ j) (r : ρ) :
    machines.holds (w.lives i) r + machines.holds (w.lives j) r ≤ capacity r := by
  have hconserved := hconserved r
  have hle : ∑ l ∈ {i, j}, machines.holds (w.lives l) r ≤ ∑ l, machines.holds (w.lives l) r :=
    Finset.sum_le_sum_of_subset (Finset.subset_univ _)
  rw [Finset.sum_pair hne] at hle
  omega

/-- All resources of programs that got under way are either free or held. -/
theorem conserved_of_initial (h : machines.Reaches apply (machines.initial capacity memory ps) w)
    (r : ρ) : w.free r + ∑ i, machines.holds (w.lives i) r = capacity r := by
  have hnone : ∑ i, machines.holds (machines.launch (ps i)) r = 0 :=
    Finset.sum_eq_zero fun i _ => holds_launch (ps i) r
  rw [conserved_of_reaches h r]
  show capacity r + ∑ i, machines.holds (machines.launch (ps i)) r = capacity r
  omega

end Machines

/-! ## What the programs do -/

/-- What is known of the phases of the machines: it holds at the start and after each step, and the
answers given are those that are promised. -/
structure Machines.Keeps (machines : Machines E A N ρ σ) (inv : (e : E) → machines.Phase e → Prop)
    (answers : (e : E) → A e → Prop) : Prop where
  start : ∀ e, inv e (machines.start e)
  work : ∀ e memory phase notes phase', inv e phase → machines.work e memory phase notes phase' →
    inv e phase'
  answer : ∀ e memory phase a, inv e phase → machines.answer e memory phase a → answers e a

variable {inv : (e : E) → machines.Phase e → Prop} {answers : (e : E) → A e → Prop}

namespace Machines

/-- A program that gets under way is that program. -/
@[simp] theorem prog_launch (q : Prog E A R) : (machines.launch q).prog = q := by
  induction q with
  | ret _ => rfl
  | crash => rfl
  | call e k _ => rfl
  | join n ps k ih _ =>
      show Prog.join n (fun i => (machines.launch (ps i)).prog) k = _
      rw [funext ih]

/-- The machines of what has just got under way have just started. -/
theorem all_launch {q : Prog E A R} (hstart : ∀ e, q.Awaits e → inv e (machines.start e)) :
    (machines.launch q).All inv := by
  induction q with
  | ret _ => trivial
  | crash => trivial
  | call e k _ => exact hstart e rfl
  | join n ps k ih _ => exact fun i => ih i fun e he => hstart e ⟨i, he⟩

/-- What is known of the phases of several programs is known after one of them has changed. -/
theorem all_update {n : ℕ} {lives : Fin n → Live machines.Phase A R} {i : Fin n}
    (hlives : ∀ j, (lives j).All inv) (hp : p.All inv) (j : Fin n) :
    (Function.update lives i p j).All inv := by
  by_cases hj : j = i
  · subst hj
    rw [Function.update_self]
    exact hp
  · rw [Function.update_of_ne hj]
    exact hlives j

/-- After a step, the machines are those of before, one of which may have worked, and those of
effects that have come to be awaited. -/
theorem Step.all_of {inv' : (e : E) → machines.Phase e → Prop}
    (h : machines.Step memory p free deeds p' free') (hp : p.All inv)
    (hkept : ∀ e phase, inv e phase → inv' e phase)
    (hwork : ∀ e phase notes phase', inv e phase → machines.work e memory phase notes phase' →
      deeds = notes.map (.noted e) → inv' e phase')
    (hstart : ∀ e, p'.prog.Awaits e → inv' e (machines.start e)) : p'.All inv' := by
  induction h with
  | work hworked _ => exact hwork _ _ _ _ hp hworked rfl
  | answer _ =>
      rw [prog_launch] at hstart
      exact all_launch hstart
  | @child n ps k i free free' deeds p _ ih =>
      have hi : p.All inv' := ih (hp i) hwork fun e he =>
        hstart e ⟨i, show Prog.Awaits e (Function.update ps i p i).prog by
          rwa [Function.update_self]⟩
      exact all_update (fun j => (hp j).mono hkept) hi
  | joined =>
      rw [prog_launch] at hstart
      exact all_launch hstart
  | crashed _ => trivial

/-- What is known of the phases is known after a step. -/
theorem Step.all (hkeeps : machines.Keeps inv answers)
    (h : machines.Step memory p free deeds p' free') (hp : p.All inv) : p'.All inv :=
  h.all_of hp (fun _ _ => id)
    (fun _ _ _ _ hphase hwork _ => hkeeps.work _ _ _ _ _ hphase hwork) fun e _ => hkeeps.start e

/-- A step is one of the program, or it is the work of a machine. -/
theorem Step.prog (hkeeps : machines.Keeps inv answers)
    (h : machines.Step memory p free deeds p' free') (hp : p.All inv) :
    Async.Step answers p.prog (events deeds) p'.prog ∨
      events deeds = [] ∧ p'.prog = p.prog := by
  induction h with
  | work _ _ => exact .inr ⟨events_noted _ _, rfl⟩
  | answer hanswer =>
      rw [prog_launch]
      exact .inl (.call (hkeeps.answer _ _ _ _ hp hanswer))
  | @child n ps k i free free' deeds p _ ih =>
      have hprog : (Live.join n (Function.update ps i p) k).prog =
          .join n (Function.update (fun j => (ps j).prog) i p.prog) k :=
        congrArg (fun qs => Prog.join n qs k) (Function.comp_update Live.prog ps i p)
      rcases ih (hp i) with hstep | ⟨hnone, heq⟩
      · rw [hprog]
        exact .inl (.child hstep)
      · rw [hprog, heq, Function.update_eq_self]
        exact .inr ⟨hnone, rfl⟩
  | joined =>
      rw [prog_launch]
      exact .inl .joined
  | @crashed n ps k i free h =>
      have hcrash : (ps i).prog = .crash := by rw [h]; rfl
      exact .inl (.crashed hcrash)

/-- The events of one of several programs are added to those that it has had. -/
theorem events_update (i : Fin count) :
    (fun j => events (Function.update logs i (logs i ++ deeds) j)) =
      Function.update (fun j => events (logs j)) i (events (logs i) ++ events deeds) := by
  rw [← events_append]
  exact Function.comp_update events logs i (logs i ++ deeds)

/-- What programs under way do is a run of theirs, and the memory changes with its events. -/
theorem Runs.exists_runAll (hkeeps : machines.Keeps inv answers)
    (h : machines.Runs apply capacity memory ps logs w) :
    (∀ i, (w.lives i).All inv) ∧
      (∀ i, Run answers (ps i) (events (logs i)) (w.lives i).prog) ∧
      ∃ tr, RunAll answers ps tr (fun i => (w.lives i).prog) ∧
        Interleaves (fun i => events (logs i)) tr ∧ w.memory = tr.foldl apply memory := by
  induction h with
  | init =>
      have hprog (i : Fin count) : (machines.launch (ps i)).prog = ps i := prog_launch _
      refine ⟨fun i => all_launch fun e _ => hkeeps.start e, fun i => ?_, [], ?_, interleaves_nil,
        rfl⟩
      · show Run answers (ps i) [] (machines.launch (ps i)).prog
        rw [hprog]
        exact .refl
      · show RunAll answers ps [] fun i => (machines.launch (ps i)).prog
        rw [funext hprog]
        exact .refl
  | @step logs w i deeds p free _ hstep ih =>
      obtain ⟨hall, hruns, tr, hrunAll, htr, hmemory⟩ := ih
      have hprogs : (fun j => (Function.update w.lives i p j).prog) =
          Function.update (fun j => (w.lives j).prog) i p.prog :=
        Function.comp_update Live.prog w.lives i p
      refine ⟨all_update hall (hstep.all hkeeps (hall i)), fun j => ?_, tr ++ events deeds, ?_, ?_,
        ?_⟩
      · show Run answers (ps j) (events (Function.update logs i (logs i ++ deeds) j))
          (Function.update w.lives i p j).prog
        by_cases hj : j = i
        · subst hj
          rw [Function.update_self, Function.update_self, events_append]
          rcases hstep.prog hkeeps (hall j) with hprog | ⟨hnone, heq⟩
          · exact (hruns j).step hprog
          · rw [hnone, heq, List.append_nil]
            exact hruns j
        · rw [Function.update_of_ne hj, Function.update_of_ne hj]
          exact hruns j
      · show RunAll answers ps (tr ++ events deeds) fun j => (Function.update w.lives i p j).prog
        rw [hprogs]
        rcases hstep.prog hkeeps (hall i) with hprog | ⟨hnone, heq⟩
        · exact hrunAll.step hprog
        · rw [hnone, heq, Function.update_eq_self, List.append_nil]
          exact hrunAll
      · rw [events_update]
        exact htr.append i _
      · rw [List.foldl_append, ← hmemory]

/-- What programs under way do is a run of theirs where effects are answered at once. -/
theorem exists_runAll (hkeeps : machines.Keeps inv answers)
    (h : machines.Reaches apply (machines.initial capacity memory ps) w) :
    (∀ i, (w.lives i).All inv) ∧ ∃ tr, RunAll answers ps tr (fun i => (w.lives i).prog) ∧
      w.memory = tr.foldl apply memory := by
  obtain ⟨logs, hruns⟩ := reaches_iff_exists_runs.mp h
  obtain ⟨hall, -, tr, hrunAll, -, hmemory⟩ := hruns.exists_runAll hkeeps
  exact ⟨hall, tr, hrunAll, hmemory⟩

end Machines

/-! ## How effects are carried out -/

/-- The phases that the machine of an effect comes to, with the notes that it takes on the way. The
memory may change between its steps. -/
inductive Machines.Path (machines : Machines E A N ρ σ) (e : E) : List N → machines.Phase e → Prop
  | start : Path machines e [] (machines.start e)
  | work {notes more : List N} {phase phase' : machines.Phase e} {memory : σ}
      (h : Path machines e notes phase) (hwork : machines.work e memory phase more phase') :
      Path machines e (notes ++ more) phase'

/-- The machine of an effect has come to a phase since the program has come to await the effect, and
what it has noted is what has been done since then, among other things. -/
def Machines.Began (machines : Machines E A N ρ σ) (answers : (e : E) → A e → Prop)
    (q₀ : Prog E A R) (log : List (Deed E A N)) (e : E) (phase : machines.Phase e) : Prop :=
  ∃ before after notes q, log = before ++ after ∧ Run answers q₀ (events before) q ∧ q.Awaits e ∧
    machines.Path e notes phase ∧ (notes.map (.noted e)).Sublist after

/-- An effect is answered by its machine, which has come to its answer since the program has come to
await the effect. -/
def Machines.Carried (machines : Machines E A N ρ σ) (answers : (e : E) → A e → Prop)
    (q₀ : Prog E A R) (log : List (Deed E A N)) : Deed E A N → Prop
  | .noted _ _ => True
  | .answered ev => ∃ phase memory,
      machines.Began answers q₀ log ev.1 phase ∧ machines.answer ev.1 memory phase ev.2

namespace Machines

variable {q₀ : Prog E A R} {log : List (Deed E A N)} {e : E} {phase : machines.Phase e}

/-- Whatever is done, a machine stays where it is. -/
theorem Began.append (h : machines.Began answers q₀ log e phase) (deeds : List (Deed E A N)) :
    machines.Began answers q₀ (log ++ deeds) e phase := by
  obtain ⟨before, after, notes, q, rfl, hrun, hawaits, hpath, hnotes⟩ := h
  exact ⟨before, after ++ deeds, notes, q, List.append_assoc _ _ _, hrun, hawaits, hpath,
    hnotes.trans (List.sublist_append_left _ _)⟩

/-- A machine works and takes notes of it. -/
theorem Began.work (h : machines.Began answers q₀ log e phase) {notes : List N}
    {phase' : machines.Phase e} (hwork : machines.work e memory phase notes phase') :
    machines.Began answers q₀ (log ++ notes.map (.noted e)) e phase' := by
  obtain ⟨before, after, earlier, q, rfl, hrun, hawaits, hpath, hnotes⟩ := h
  refine ⟨before, after ++ notes.map (.noted e), earlier ++ notes, q, List.append_assoc _ _ _, hrun,
    hawaits, hpath.work hwork, ?_⟩
  rw [List.map_append]
  exact hnotes.append (List.Sublist.refl _)

/-- What is done in a step is noted, or it is the answer of a machine. -/
theorem Step.deeds_cases (h : machines.Step memory p free deeds p' free') (hp : p.All inv) :
    (∀ deed ∈ deeds, ∃ e note, deed = .noted e note) ∨
      ∃ ev phase, deeds = [.answered ev] ∧ inv ev.1 phase ∧
        machines.answer ev.1 memory phase ev.2 := by
  induction h with
  | @work e phase phase' k free notes _ _ =>
      refine .inl fun deed hdeed => ?_
      obtain ⟨note, -, rfl⟩ := List.mem_map.mp hdeed
      exact ⟨e, note, rfl⟩
  | answer hanswer => exact .inr ⟨_, _, rfl, hp, hanswer⟩
  | child _ ih => exact ih (hp _)
  | joined => exact .inl fun deed hdeed => nomatch hdeed
  | crashed _ => exact .inl fun deed hdeed => nomatch hdeed

/-- The machines under way have come to their phases since their programs await the effects, and so
had those whose effects have been answered. -/
theorem Runs.carried (hkeeps : machines.Keeps inv answers)
    (h : machines.Runs apply capacity memory ps logs w) (i : Fin count) :
    (w.lives i).All (machines.Began answers (ps i) (logs i)) ∧
      Guarded (machines.Carried answers (ps i)) (logs i) := by
  induction h with
  | init =>
      refine ⟨all_launch fun e he => ?_, guarded_nil⟩
      exact ⟨[], [], [], ps i, rfl, .refl, he, .start, .slnil⟩
  | @step logs w j deeds p free hruns hstep ih =>
      by_cases hij : i = j
      · subst hij
        show (Function.update w.lives i p i).All _ ∧ _
        rw [Function.update_self, Function.update_self]
        obtain ⟨hbegan, hcarried⟩ := ih
        obtain ⟨hall, hrun, -⟩ := (hruns.step hstep).exists_runAll hkeeps
        have hrun := hrun i
        rw [Function.update_self] at hrun
        replace hrun : Run answers (ps i) (events (logs i ++ deeds)) p.prog :=
          (Function.update_self i p w.lives) ▸ hrun
        refine ⟨hstep.all_of hbegan (fun e phase hphase => hphase.append deeds) ?_ ?_, ?_⟩
        · rintro e phase notes phase' hphase hwork rfl
          exact hphase.work hwork
        · intro e he
          exact ⟨logs i ++ deeds, [], [], p.prog, (List.append_nil _).symm, hrun, he, .start,
            .slnil⟩
        · rcases hstep.deeds_cases hbegan with hnoted | ⟨ev, phase, rfl, hphase, hanswer⟩
          · refine guarded_append hcarried fun before deed after heq => ?_
            obtain ⟨e, note, rfl⟩ := hnoted deed (by rw [heq]; simp)
            trivial
          · exact hcarried.concat ⟨phase, w.memory, hphase, hanswer⟩
      · show (Function.update w.lives j p i).All _ ∧ _
        rw [Function.update_of_ne hij, Function.update_of_ne hij]
        exact ih

end Machines

/-- An event of a step is the answer of a machine, and the program holds what the machine holds. -/
theorem Machines.Step.exists_answer (h : machines.Step memory p free deeds p' free')
    {ev : Event E A} (hev : ev ∈ events deeds) : ∃ phase, machines.answer ev.1 memory phase ev.2 ∧
      ∀ r, machines.held ev.1 phase r ≤ machines.holds p r := by
  induction h with
  | work _ _ =>
      rw [events_noted] at hev
      cases hev
  | @answer e phase k free a hanswer =>
      obtain rfl : ev = ⟨e, a⟩ := List.mem_singleton.mp hev
      exact ⟨phase, hanswer, fun r => le_rfl⟩
  | @child n ps k i free free' deeds p _ ih =>
      obtain ⟨phase, hanswer, hheld⟩ := ih hev
      refine ⟨phase, hanswer, fun r => (hheld r).trans ?_⟩
      have hle : ∀ j ∈ Finset.univ, 0 ≤ machines.holds (ps j) r := fun j _ => Nat.zero_le _
      exact Finset.single_le_sum hle (Finset.mem_univ i)
  | joined => cases hev
  | crashed _ => cases hev

/-- A machine of a program that has just got under way has just started. -/
theorem Machines.launch_eq_running {q : Prog E A R} {e : E} {phase : machines.Phase e}
    {k : A e → Prog E A R} (h : machines.launch q = .running e phase k) :
    phase = machines.start e := by
  cases q with
  | call e' k' =>
      cases h
      rfl
  | ret r => cases h
  | crash => cases h
  | join n ps k' => cases h

/-- A machine of a program without joined programs has just started, or it has worked. -/
theorem Machines.Step.of_running (h : machines.Step memory p free deeds p' free') {e : E}
    {phase : machines.Phase e} {k : A e → Prog E A R} (hp' : p' = .running e phase k) :
    phase = machines.start e ∨ ∃ phase' notes, deeds = notes.map (.noted e) ∧
      p = .running e phase' k ∧ machines.work e memory phase' notes phase := by
  cases h with
  | work hwork _ =>
      cases hp'
      exact .inr ⟨_, _, rfl, rfl, hwork⟩
  | answer _ => exact .inl (launch_eq_running hp')
  | child _ => cases hp'
  | joined => exact .inl (launch_eq_running hp')
  | crashed _ => cases hp'

/-- Programs measure no more than their machines do. -/
theorem Live.total_le {measure measure' : (e : E) → Phase e → ℕ}
    {known : (e : E) → Phase e → Prop}
    (hle : ∀ e phase, known e phase → measure e phase ≤ measure' e phase) {p : Live Phase A R}
    (hp : p.All known) : p.total measure ≤ p.total measure' := by
  induction p with
  | ret _ => exact le_rfl
  | crash => exact le_rfl
  | running e phase k => exact hle e phase hp
  | join n ps k ih => exact Finset.sum_le_sum fun i _ => ih i (hp i)

/-! ## Running to the end -/

/-- Machines that are never stuck: each has an answer or a step towards it, for which it takes
nothing, or what is free if nothing is held, and then it holds nothing itself. -/
structure Machines.Progresses (machines : Machines E A N ρ σ) (capacity : ρ → ℕ)
    (inv : (e : E) → machines.Phase e → Prop) (rank : (e : E) → machines.Phase e → ℕ) : Prop where
  next : ∀ e memory phase, inv e phase →
    (∃ a, machines.answer e memory phase a) ∨
      ∃ notes phase', machines.work e memory phase notes phase' ∧ rank e phase' < rank e phase ∧
        ((∀ r, machines.held e phase' r ≤ machines.held e phase r) ∨
          ∀ r, machines.held e phase r = 0 ∧ machines.held e phase' r ≤ capacity r)

/-- A program has come closer to its end: it has made a step, or its machines have. -/
def Live.Below (rank : (e : E) → Phase e → ℕ) (p' p : Live Phase A R) : Prop :=
  (∃ evs, Async.Step (fun _ _ => True) p.prog evs p'.prog) ∨
    p'.prog = p.prog ∧ p'.total rank < p.total rank

/-- A program comes to its end. -/
theorem Live.acc_below (rank : (e : E) → Phase e → ℕ) (p : Live Phase A R) :
    Acc (Live.Below rank) p := by
  have hpair := Prod.lexAccessible (acc_step (fun _ _ => True) p.prog)
    (fun measure => Nat.lt_wfRel.wf.apply measure) (p.total rank)
  refine Subrelation.accessible ?_
    (InvImage.accessible (fun q : Live Phase A R => (q.prog, q.total rank)) hpair)
  intro q' q hq
  show Prod.Lex _ _ (q'.prog, q'.total rank) (q.prog, q.total rank)
  rcases hq with hstep | ⟨heq, hlt⟩
  · exact .left _ _ hstep
  · rw [heq]
    exact .right _ hlt

/-- Joined programs have come closer to their ends if one of them has. -/
theorem Live.Below.child {rank : (e : E) → Phase e → ℕ} {n : ℕ} {ps : Fin n → Live Phase A R}
    {k : (Fin n → R) → Prog E A R} {i : Fin n} {q : Live Phase A R}
    (h : Live.Below rank q (ps i)) :
    Live.Below rank (.join n (Function.update ps i q) k) (.join n ps k) := by
  have hprog : (Live.join n (Function.update ps i q) k).prog =
      .join n (Function.update (fun j => (ps j).prog) i q.prog) k :=
    congrArg (fun qs => Prog.join n qs k) (Function.comp_update Live.prog ps i q)
  rcases h with ⟨evs, hstep⟩ | ⟨heq, hlt⟩
  · refine .inl ⟨evs, ?_⟩
    rw [hprog]
    exact .child hstep
  · refine .inr ⟨?_, ?_⟩
    · rw [hprog, heq, Function.update_eq_self]
      rfl
    · have hsum := sum_update_add ps (Live.total rank) i q
      show ∑ j, (Function.update ps i q j).total rank < ∑ j, (ps j).total rank
      omega

namespace Machines

variable {rank : (e : E) → machines.Phase e → ℕ}

/-- A machine that answers brings its program closer to its end. -/
theorem below_answer {e : E} {phase : machines.Phase e} {k : A e → Prog E A R} (a : A e) :
    Live.Below rank (machines.launch (k a)) (.running e phase k) := by
  refine .inl ⟨[⟨e, a⟩], ?_⟩
  rw [prog_launch]
  exact .call trivial

/-- A program that holds something can go on, whatever is free. -/
theorem exists_step_of_holds (hprogress : machines.Progresses capacity inv rank) (hp : p.All inv)
    {r : ρ} (hholds : machines.holds p r ≠ 0) : ∃ deeds p' free',
      machines.Step memory p free deeds p' free' ∧ Live.Below rank p' p := by
  induction p with
  | ret _ => exact absurd rfl hholds
  | crash => exact absurd rfl hholds
  | running e phase k =>
      rcases hprogress.next e memory phase hp with ⟨a, ha⟩ | ⟨notes, phase', hwork, hrank, hheld⟩
      · exact ⟨_, _, _, .answer ha, below_answer a⟩
      · rcases hheld with hle | hnone
        · refine ⟨_, _, _, .work hwork fun r => ?_, .inr ⟨rfl, hrank⟩⟩
          have hle := hle r
          omega
        · exact absurd (hnone r).1 hholds
  | join n ps k ih =>
      rw [holds_join] at hholds
      obtain ⟨i, -, hi⟩ := Finset.exists_ne_zero_of_sum_ne_zero hholds
      obtain ⟨deeds, p', free', hstep, hbelow⟩ := ih i (hp i) hi
      exact ⟨_, _, _, .child hstep, hbelow.child⟩

/-- A program that has not ended can go on if all resources are free. -/
theorem exists_step_of_free (hprogress : machines.Progresses capacity inv rank) (hp : p.All inv)
    (hfree : ∀ r, capacity r ≤ free r) (hfinal : ¬ p.Final) : ∃ deeds p' free',
      machines.Step memory p free deeds p' free' ∧ Live.Below rank p' p := by
  induction p with
  | ret result => exact absurd (.inr ⟨result, rfl⟩) hfinal
  | crash => exact absurd (.inl rfl) hfinal
  | running e phase k =>
      rcases hprogress.next e memory phase hp with ⟨a, ha⟩ | ⟨notes, phase', hwork, hrank, hheld⟩
      · exact ⟨_, _, _, .answer ha, below_answer a⟩
      · refine ⟨_, _, _, .work hwork fun r => ?_, .inr ⟨rfl, hrank⟩⟩
        have hfree := hfree r
        rcases hheld with hle | hnone
        · have hle := hle r
          omega
        · have hnone := hnone r
          omega
  | join n ps k ih =>
      by_cases hreturned : ∀ i, ∃ result, ps i = .ret result
      · choose rs hrs using hreturned
        obtain rfl := funext hrs
        refine ⟨_, _, _, .joined, .inl ⟨[], ?_⟩⟩
        rw [prog_launch]
        exact .joined
      · obtain ⟨i, hi⟩ := not_forall.mp hreturned
        by_cases hcrash : ps i = .crash
        · refine ⟨_, _, _, .crashed hcrash, .inl ⟨[], .crashed (i := i) ?_⟩⟩
          rw [hcrash]
          rfl
        · obtain ⟨deeds, p', free', hstep, hbelow⟩ :=
            ih i (hp i) fun hend => hend.elim hcrash hi
          exact ⟨_, _, _, .child hstep, hbelow.child⟩

/-- While all resources are free or held and some program has not ended, one can go on. -/
theorem exists_worldStep (hprogress : machines.Progresses capacity inv rank)
    (hall : ∀ i, (w.lives i).All inv)
    (hconserved : ∀ r, w.free r + ∑ i, machines.holds (w.lives i) r = capacity r)
    {i : Fin count} (hi : ¬ (w.lives i).Final) : ∃ j p w',
      machines.WorldStep apply w w' ∧ w'.lives = Function.update w.lives j p ∧
        Live.Below rank p (w.lives j) := by
  -- whoever holds something goes on, and if nobody does there is nothing to wait for
  by_cases hholds : ∃ j r, machines.holds (w.lives j) r ≠ 0
  · obtain ⟨j, r, hholds⟩ := hholds
    obtain ⟨deeds, p, free, hstep, hbelow⟩ := exists_step_of_holds hprogress (hall j) hholds
    exact ⟨j, p, _, .step hstep, rfl, hbelow⟩
  · have hfree (r : ρ) : capacity r ≤ w.free r := by
      have hnone : ∑ j, machines.holds (w.lives j) r = 0 :=
        Finset.sum_eq_zero fun j _ => not_not.mp fun hne => hholds ⟨j, r, hne⟩
      have hconserved := hconserved r
      omega
    obtain ⟨deeds, p, free, hstep, hbelow⟩ := exists_step_of_free hprogress (hall i) hfree hi
    exact ⟨i, p, _, .step hstep, rfl, hbelow⟩

/-- From every state that is reached, all programs can be run to their ends. -/
theorem exists_final (hkeeps : machines.Keeps inv answers)
    (hprogress : machines.Progresses capacity inv rank)
    (h : machines.Reaches apply (machines.initial capacity memory ps) w) :
    ∃ w', machines.Reaches apply w w' ∧ ∀ i, (w'.lives i).Final := by
  have hacc := acc_update fun i => Live.acc_below rank (w.lives i)
  obtain ⟨lives, hlives⟩ : ∃ lives, lives = w.lives := ⟨_, rfl⟩
  rw [← hlives] at hacc
  induction hacc generalizing w with
  | intro lives _ ih =>
      subst hlives
      by_cases hfinal : ∀ i, (w.lives i).Final
      · exact ⟨w, .refl, hfinal⟩
      · obtain ⟨i, hi⟩ := not_forall.mp hfinal
        obtain ⟨j, p, w', hstep, hlives, hbelow⟩ := exists_worldStep hprogress
          (exists_runAll hkeeps h).1 (conserved_of_initial h) hi
        obtain ⟨w'', hreaches, hend⟩ :=
          ih w'.lives ⟨j, p, hbelow, hlives⟩ (h.tail hstep) rfl
        exact ⟨w'', .head hstep hreaches, hend⟩

end Machines

/-! ## Carrying out one effect after the other -/

/-- Machines that can give every answer that is promised while they have all resources to
themselves. -/
structure Machines.Realises (machines : Machines E A N ρ σ) (capacity : ρ → ℕ)
    (answers : (e : E) → A e → Prop) : Prop where
  answer : ∀ e memory a, answers e a → ∃ phase,
    Relation.ReflTransGen (fun phase phase' =>
        (∃ notes, machines.work e memory phase notes phase') ∧
          ∀ r, machines.held e phase' r ≤ capacity r) (machines.start e) phase ∧
      machines.answer e memory phase a

namespace Machines

/-- Work without events, with what is free before and after it. -/
def Works (machines : Machines E A N ρ σ) (memory : σ) :
    Live machines.Phase A R × (ρ → ℕ) → Live machines.Phase A R × (ρ → ℕ) → Prop :=
  Relation.ReflTransGen fun x y => ∃ deeds : List (Deed E A N),
    events deeds = [] ∧ machines.Step memory x.1 x.2 deeds y.1 y.2

/-- A machine works while it has all resources to itself. -/
theorem works_of_path {e : E} {phase : machines.Phase e} {k : A e → Prog E A R}
    (h : Relation.ReflTransGen (fun phase phase' =>
      (∃ notes, machines.work e memory phase notes phase') ∧
        ∀ r, machines.held e phase' r ≤ capacity r) (machines.start e) phase) :
    (∀ r, machines.held e phase r ≤ capacity r) ∧
      machines.Works memory (.running e (machines.start e) k, capacity)
        (.running e phase k, fun r => capacity r - machines.held e phase r) := by
  induction h with
  | refl =>
      have hfree : (fun r => capacity r - machines.held e (machines.start e) r) = capacity := by
        funext r
        rw [machines.held_start, Nat.sub_zero]
      refine ⟨fun r => ?_, ?_⟩
      · rw [machines.held_start]
        exact Nat.zero_le _
      · rw [hfree]
        exact .refl
  | @tail phase phase' _ hstep ih =>
      obtain ⟨hheld, hworks⟩ := ih
      obtain ⟨⟨notes, hwork⟩, hheld'⟩ := hstep
      have hfree : (fun r => capacity r - machines.held e phase' r) = fun r =>
          capacity r - machines.held e phase r + machines.held e phase r -
            machines.held e phase' r := by
        funext r
        have hle := hheld r
        omega
      refine ⟨hheld', hworks.tail ⟨_, events_noted e notes, ?_⟩⟩
      rw [hfree]
      refine .work hwork fun r => ?_
      have hle := hheld r
      have hle' := hheld' r
      show machines.held e phase' r ≤
        capacity r - machines.held e phase r + machines.held e phase r
      omega

/-- One of joined programs works. -/
theorem Works.child {n : ℕ} {qs : Fin n → Live machines.Phase A R} {k : (Fin n → R) → Prog E A R}
    {i : Fin n} {x : Live machines.Phase A R × (ρ → ℕ)}
    (h : machines.Works memory (qs i, free) x) :
    machines.Works memory (.join n qs k, free) (.join n (Function.update qs i x.1) k, x.2) := by
  induction h with
  | refl =>
      rw [Function.update_eq_self]
      exact .refl
  | @tail x y _ hstep ih =>
      obtain ⟨deeds, hnone, hstep⟩ := hstep
      refine ih.tail ⟨deeds, hnone, ?_⟩
      have hchild : machines.Step memory (Function.update qs i x.1 i) x.2 deeds y.1 y.2 := by
        rw [Function.update_self]
        exact hstep
      have hjoin := Step.child (k := k) hchild
      rw [Function.update_idem] at hjoin
      exact hjoin

/-- One of the programs makes a step. -/
theorem worldStep_update {lives : Fin count → Live machines.Phase A R} {i : Fin count}
    (h : machines.Step memory p free deeds p' free') :
    machines.WorldStep apply ⟨Function.update lives i p, free, memory⟩
      ⟨Function.update lives i p', free', (events deeds).foldl apply memory⟩ := by
  have hown : machines.Step memory (Function.update lives i p i) free deeds p' free' := by
    rw [Function.update_self]
    exact h
  have hstep : machines.WorldStep apply ⟨Function.update lives i p, free, memory⟩
      ⟨Function.update (Function.update lives i p) i p', free',
        (events deeds).foldl apply memory⟩ := .step hown
  rw [Function.update_idem] at hstep
  exact hstep

/-- One of the programs works. -/
theorem Works.reaches {i : Fin count} {x : Live machines.Phase A R × (ρ → ℕ)}
    (h : machines.Works w.memory (w.lives i, w.free) x) :
    machines.Reaches apply w ⟨Function.update w.lives i x.1, x.2, w.memory⟩ := by
  induction h with
  | refl =>
      rw [Function.update_eq_self]
      exact .refl
  | @tail x y _ hstep ih =>
      obtain ⟨deeds, hnone, hstep⟩ := hstep
      have hworld : machines.WorldStep apply ⟨Function.update w.lives i x.1, x.2, w.memory⟩
          ⟨Function.update w.lives i y.1, y.2, (events deeds).foldl apply w.memory⟩ :=
        worldStep_update hstep
      rw [hnone] at hworld
      exact ih.tail hworld

/-- The machine of an effect that a program awaits works while it has all resources to itself. -/
theorem exists_works_of_path {e : E} {phase : machines.Phase e}
    (h : Relation.ReflTransGen (fun phase phase' =>
      (∃ notes, machines.work e memory phase notes phase') ∧
        ∀ r, machines.held e phase' r ≤ capacity r) (machines.start e) phase)
    {q : Prog E A R} (hq : q.Awaits e) : ∃ p,
      machines.Works memory (machines.launch q, capacity)
        (p, fun r => capacity r - machines.held e phase r) ∧
      ∀ measure : (e : E) → machines.Phase e → ℕ, measure e phase ≤ p.total measure := by
  induction q with
  | ret _ => cases hq
  | crash => cases hq
  | call e' k _ =>
      obtain rfl : e' = e := hq
      exact ⟨_, (works_of_path h).2, fun measure => le_rfl⟩
  | join n ps k ih _ =>
      obtain ⟨i, hi⟩ := hq
      obtain ⟨p, hworks, htotal⟩ := ih i hi
      have hjoin : machines.Works memory (.join n (fun j => machines.launch (ps j)) k, capacity)
          (.join n (Function.update (fun j => machines.launch (ps j)) i p) k,
            fun r => capacity r - machines.held e phase r) :=
        Works.child (x := (p, fun r => capacity r - machines.held e phase r)) hworks
      refine ⟨_, hjoin, fun measure => (htotal measure).trans ?_⟩
      have hle : ∀ j ∈ Finset.univ, 0 ≤
          (Function.update (fun j => machines.launch (ps j)) i p j).total measure :=
        fun j _ => Nat.zero_le _
      have hsingle := Finset.single_le_sum hle (Finset.mem_univ i)
      rwa [Function.update_self] at hsingle

/-- A program makes any of its steps while it has all resources to itself. -/
theorem Realises.exists_works (hrealises : machines.Realises capacity answers)
    {q q' : Prog E A R} {evs : List (Event E A)} (h : Async.Step answers q evs q') (memory : σ) :
    ∃ p free deeds, machines.Works memory (machines.launch q, capacity) (p, free) ∧
      events deeds = evs ∧ machines.Step memory p free deeds (machines.launch q') capacity := by
  induction h with
  | @call e k a ha =>
      obtain ⟨phase, hpath, hanswer⟩ := hrealises.answer e memory a ha
      obtain ⟨hheld, hworks⟩ := works_of_path (k := k) hpath
      have hfree : (fun r => capacity r - machines.held e phase r + machines.held e phase r) =
          capacity := funext fun r => Nat.sub_add_cancel (hheld r)
      have hstep : machines.Step memory (.running e phase k)
          (fun r => capacity r - machines.held e phase r) [.answered ⟨e, a⟩] (machines.launch (k a))
          fun r => capacity r - machines.held e phase r + machines.held e phase r :=
        .answer hanswer
      rw [hfree] at hstep
      exact ⟨_, _, _, hworks, rfl, hstep⟩
  | @child n ps k i evs q _ ih =>
      obtain ⟨p, free, deeds, hworks, hevs, hstep⟩ := ih
      have hlaunch : machines.launch (.join n (Function.update ps i q) k) = .join n
          (Function.update (fun j => machines.launch (ps j)) i (machines.launch q)) k :=
        congrArg (fun qs => Live.join n qs k) (Function.comp_update machines.launch ps i q)
      have hchild : machines.Step memory
          (Function.update (fun j => machines.launch (ps j)) i p i) free deeds
            (machines.launch q) capacity := by
        rw [Function.update_self]
        exact hstep
      have hjoin := Step.child (k := k) hchild
      rw [Function.update_idem] at hjoin
      rw [hlaunch]
      exact ⟨_, _, _, Works.child hworks, hevs, hjoin⟩
  | joined => exact ⟨_, _, [], .refl, rfl, .joined⟩
  | @crashed n ps k i hcrash =>
      have hlaunch : machines.launch (ps i) = .crash := by
        rw [hcrash]
        rfl
      have hstep : machines.Step memory (machines.launch (.join n ps k)) capacity [] .crash
          fun r => capacity r + machines.holds (machines.launch (.join n ps k)) r :=
        .crashed hlaunch
      have hfree : (fun r => capacity r + machines.holds (machines.launch (.join n ps k)) r) =
          capacity := funext fun r => by rw [holds_launch, Nat.add_zero]
      rw [hfree] at hstep
      exact ⟨_, _, [], .refl, rfl, hstep⟩

/-- Every run of programs whose effects are answered at once is one in which their machines carry
out one effect after the other. -/
theorem Realises.reaches (hrealises : machines.Realises capacity answers)
    {qs : Fin count → Prog E A R} {tr : List (Event E A)} (h : RunAll answers ps tr qs) :
    machines.Reaches apply (machines.initial capacity memory ps)
      ⟨fun i => machines.launch (qs i), capacity, tr.foldl apply memory⟩ := by
  induction h with
  | refl => exact .refl
  | @step tr evs qs i q _ hstep ih =>
      obtain ⟨p, free, deeds, hworks, rfl, hlast⟩ :=
        hrealises.exists_works hstep (tr.foldl apply memory)
      have hlaunch : (fun j => machines.launch (Function.update qs i q j)) =
          Function.update (fun j => machines.launch (qs j)) i (machines.launch q) :=
        Function.comp_update machines.launch qs i q
      rw [hlaunch, List.foldl_append]
      exact (ih.trans (Works.reaches hworks)).tail (worldStep_update hlast)

end Machines

end Async
