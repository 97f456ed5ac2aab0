import Mathlib.Data.Finset.Insert
import Mathlib.Data.Fintype.Basic
import Mathlib.Data.Fintype.EquivFin
import Mathlib.Logic.Hydra
import Mathlib.Logic.Function.Basic
import Mathlib.Logic.Function.Iterate
import Mathlib.Logic.Relation

/-!
# Scripts that share a memory and a lock

Scripts run concurrently and share a memory. A part of the memory is guarded by a lock: a script
takes the lock, works on the guarded part and gives the lock back.

`Script.wp` follows a script step by step. The shared part is only known to keep an invariant, since
any other script can be next. The guarded part keeps one while nobody has the lock, and a script
that has the lock knows it exactly. What is shown of every script for itself holds in every
interleaving (`Holds.of_reaches`), and all scripts come to their ends, whoever takes the turns
(`Holds.ended_of_run`).
-/

namespace Async

/-! ## Outcomes -/

/-- How a script ends: with a result, with an error, or in a crash. -/
inductive Outcome (ε R : Type) where
  | ok (r : R)
  | error (e : ε)
  | crashed
deriving DecidableEq

namespace Outcome

variable {ε R R' : Type}

/-- Goes on with a result. -/
def bind : Outcome ε R → (R → Outcome ε R') → Outcome ε R'
  | .ok r, f => f r
  | .error e, _ => .error e
  | .crashed, _ => .crashed

instance : Monad (Outcome ε) where
  pure := .ok
  bind := .bind

/-- What can come of going on with a result. -/
def Then : Outcome ε R → (R → Outcome ε R' → Prop) → Outcome ε R' → Prop
  | .ok r, next, o => next r o
  | .error e, _, o => o = .error e
  | .crashed, _, o => o = .crashed

/-- Crashes instead of ending with an error. -/
def unwrap {ε' : Type} : Outcome ε R → Outcome ε' R
  | .ok r => .ok r
  | .error _ => .crashed
  | .crashed => .crashed

end Outcome

/-- The ways in which something can end. -/
def Possible (ε R : Type) : Type :=
  Outcome ε R → Prop

instance {ε : Type} : Monad (Possible ε) where
  pure r := fun o => o = .ok r
  bind c f := fun o => ∃ o', c o' ∧ o'.Then f o

/-! ## Scripts -/

/-- A script ends, takes the lock or gives it back, or awaits the answer to an effect on the shared
or on the guarded part of the memory. -/
inductive Script (E F : Type) (A : E → Type) (B : F → Type) (ε R : Type) where
  | done (o : Outcome ε R)
  | lock (k : Script E F A B ε R)
  | unlock (k : Script E F A B ε R)
  | shared (e : E) (k : A e → Script E F A B ε R)
  | guarded (f : F) (k : B f → Script E F A B ε R)

namespace Script

variable {E F : Type} {A : E → Type} {B : F → Type} {ε R R' : Type}

/-- Goes on with the result of a script. -/
def bind : Script E F A B ε R → (R → Script E F A B ε R') → Script E F A B ε R'
  | .done (.ok r), f => f r
  | .done (.error e), _ => .done (.error e)
  | .done .crashed, _ => .done .crashed
  | .lock k, f => .lock (k.bind f)
  | .unlock k, f => .unlock (k.bind f)
  | .shared e k, f => .shared e fun a => (k a).bind f
  | .guarded e k, f => .guarded e fun b => (k b).bind f

instance : Monad (Script E F A B ε) where
  pure r := .done (.ok r)
  bind := .bind

/-- Awaits an effect on the shared part. -/
def ask (e : E) : Script E F A B ε (A e) :=
  .shared e fun a => .done (.ok a)

/-- Awaits an effect on the guarded part. -/
def askGuarded (f : F) : Script E F A B ε (B f) :=
  .guarded f fun b => .done (.ok b)

/-- Gives the lock back at the end, however the script ends. -/
def release : Script E F A B ε R → Script E F A B ε R
  | .done o => .unlock (.done o)
  | .lock k => .lock k.release
  | .unlock k => .unlock k.release
  | .shared e k => .shared e fun a => (k a).release
  | .guarded f k => .guarded f fun b => (k b).release

/-- Runs a script while having the lock. -/
def withLock (p : Script E F A B ε R) : Script E F A B ε R :=
  .lock p.release

/-- Crashes instead of ending with an error. -/
def unwrap {ε' : Type} : Script E F A B ε R → Script E F A B ε' R
  | .done o => .done o.unwrap
  | .lock k => .lock k.unwrap
  | .unlock k => .unlock k.unwrap
  | .shared e k => .shared e fun a => (k a).unwrap
  | .guarded f k => .guarded f fun b => (k b).unwrap

/-- What puts something in place of the end of a script and leaves the rest as it is. -/
structure ReplacesEnd {ε' : Type} (t : Script E F A B ε R → Script E F A B ε' R') : Prop where
  lock (k : Script E F A B ε R) : t (.lock k) = .lock (t k)
  unlock (k : Script E F A B ε R) : t (.unlock k) = .unlock (t k)
  shared (e : E) (k : A e → Script E F A B ε R) : t (.shared e k) = .shared e fun a => t (k a)
  guarded (f : F) (k : B f → Script E F A B ε R) : t (.guarded f k) = .guarded f fun b => t (k b)

/-- A script as it is has its end in place. -/
theorem replacesEnd_id : ReplacesEnd fun p : Script E F A B ε R => p :=
  ⟨fun _ => rfl, fun _ => rfl, fun _ _ => rfl, fun _ _ => rfl⟩

/-- Going on with the result replaces the end. -/
theorem replacesEnd_bind (f : R → Script E F A B ε R') : ReplacesEnd fun p => p.bind f :=
  ⟨fun _ => rfl, fun _ => rfl, fun _ _ => rfl, fun _ _ => rfl⟩

/-- Giving the lock back at the end replaces the end. -/
theorem replacesEnd_release : ReplacesEnd (release : Script E F A B ε R → _) :=
  ⟨fun _ => rfl, fun _ => rfl, fun _ _ => rfl, fun _ _ => rfl⟩

/-- Crashing instead of ending with an error replaces the end. -/
theorem replacesEnd_unwrap {ε' : Type} :
    ReplacesEnd (unwrap : Script E F A B ε R → Script E F A B ε' R) :=
  ⟨fun _ => rfl, fun _ => rfl, fun _ _ => rfl, fun _ _ => rfl⟩

end Script

/-! ## Scripts that take turns -/

/-- What effects are answered with, and how they change their part of the memory. -/
structure Effects (E F : Type) (A : E → Type) (B : F → Type) (σ τ : Type) where
  shared : (e : E) → σ → A e → σ → Prop
  guarded : (f : F) → τ → B f → τ → Prop

namespace Script

variable {ι E F σ τ ε R : Type} {A : E → Type} {B : F → Type} [DecidableEq ι]

/-- Scripts under way, who has the lock, and the memory. -/
structure World (ι E F σ τ ε R : Type) (A : E → Type) (B : F → Type) where
  scripts : ι → Script E F A B ε R
  holder : Option ι
  shared : σ
  guarded : τ

variable (effects : Effects E F A B σ τ)

/-- One of the scripts makes a step. The lock is taken when nobody has it. -/
inductive Step : World ι E F σ τ ε R A B → World ι E F σ τ ε R A B → Prop where
  | lock {w : World ι E F σ τ ε R A B} {i : ι} {k : Script E F A B ε R}
      (hi : w.scripts i = .lock k) (hfree : w.holder = none) :
      Step w { w with scripts := Function.update w.scripts i k, holder := some i }
  | unlock {w : World ι E F σ τ ε R A B} {i : ι} {k : Script E F A B ε R}
      (hi : w.scripts i = .unlock k) :
      Step w { w with scripts := Function.update w.scripts i k, holder := none }
  | shared {w : World ι E F σ τ ε R A B} {i : ι} {e : E} {k : A e → Script E F A B ε R} {a : A e}
      {memory : σ} (hi : w.scripts i = .shared e k) (heffect : effects.shared e w.shared a memory) :
      Step w { w with scripts := Function.update w.scripts i (k a), shared := memory }
  | guarded {w : World ι E F σ τ ε R A B} {i : ι} {f : F} {k : B f → Script E F A B ε R} {b : B f}
      {memory : τ} (hi : w.scripts i = .guarded f k)
      (heffect : effects.guarded f w.guarded b memory) :
      Step w { w with scripts := Function.update w.scripts i (k b), guarded := memory }

/-- The scripts can get from one state to another by taking turns. -/
def Reaches : World ι E F σ τ ε R A B → World ι E F σ τ ε R A B → Prop :=
  Relation.ReflTransGen (Step effects)

/-- A script has come to its end. -/
def World.Ended (w : World ι E F σ τ ε R A B) (i : ι) : Prop :=
  ∃ o, w.scripts i = .done o

/-! ## Following a script -/

/-- What is known of the shared part at any time, and of the guarded part while nobody has the
lock. -/
structure Invariant (σ τ : Type) where
  shared : σ → Prop
  guarded : τ → Prop

variable (inv : Invariant σ τ)

/-- A script that has the lock and this guarded part, or does not have the lock, keeps the
invariant and ends as described, whatever other scripts that keep it do in between. -/
def wp : Script E F A B ε R → (Outcome ε R → Option τ → Prop) → Option τ → Prop
  | .done o, post, own => post o own
  | .lock k, post, own => own = none ∧ ∀ memory, inv.guarded memory → wp k post (some memory)
  | .unlock k, post, own => ∃ memory, own = some memory ∧ inv.guarded memory ∧ wp k post none
  | .shared e k, post, own => ∀ memory a memory', inv.shared memory →
      effects.shared e memory a memory' → inv.shared memory' ∧ wp (k a) post own
  | .guarded f k, post, own => ∃ memory, own = some memory ∧
      ∀ b memory', effects.guarded f memory b memory' → wp (k b) post (some memory')

variable {effects inv} {R' : Type} {p : Script E F A B ε R} {f : R → Script E F A B ε R'}
  {post post' : Outcome ε R → Option τ → Prop} {own : Option τ}

/-- A script keeps the invariant up to its end, whatever is put in the place of the end. -/
theorem ReplacesEnd.wp {ε' : Type} {t : Script E F A B ε R → Script E F A B ε' R'}
    (ht : ReplacesEnd t) {post' : Outcome ε' R' → Option τ → Prop}
    (h : wp effects inv p post own)
    (hend : ∀ o own, post o own → wp effects inv (t (.done o)) post' own) :
    wp effects inv (t p) post' own := by
  induction p generalizing own with
  | done o => exact hend o own h
  | lock k ih =>
      rw [ht.lock]
      exact ⟨h.1, fun memory hmemory => ih (h.2 memory hmemory)⟩
  | unlock k ih =>
      obtain ⟨memory, hown, hmemory, hk⟩ := h
      rw [ht.unlock]
      exact ⟨memory, hown, hmemory, ih hk⟩
  | shared e k ih =>
      rw [ht.shared]
      intro memory a memory' hmemory heffect
      obtain ⟨hmemory', hk⟩ := h memory a memory' hmemory heffect
      exact ⟨hmemory', ih a hk⟩
  | guarded g k ih =>
      obtain ⟨memory, hown, hk⟩ := h
      rw [ht.guarded]
      exact ⟨memory, hown, fun b memory' heffect => ih b (hk b memory' heffect)⟩

/-- A script also ends in ways that are described less precisely. -/
theorem wp_mono (h : wp effects inv p post own) (hpost : ∀ o own, post o own → post' o own) :
    wp effects inv p post' own :=
  replacesEnd_id.wp h hpost

/-- What goes on with the result of a script. -/
def thenPost (effects : Effects E F A B σ τ) (inv : Invariant σ τ)
    (f : R → Script E F A B ε R') (post : Outcome ε R' → Option τ → Prop) :
    Outcome ε R → Option τ → Prop
  | .ok r, own => wp effects inv (f r) post own
  | .error e, own => post (.error e) own
  | .crashed, own => post .crashed own

/-- A script goes on with its result. -/
theorem wp_bind {post : Outcome ε R' → Option τ → Prop}
    (h : wp effects inv p (thenPost effects inv f post) own) :
    wp effects inv (p >>= f) post own := by
  refine (replacesEnd_bind f).wp h fun o own ho => ?_
  cases o <;> exact ho

/-- A script gives the lock back with a guarded part that keeps the invariant. -/
theorem wp_release
    (h : wp effects inv p (fun o own => ∃ memory, own = some memory ∧ inv.guarded memory ∧
      post o none) own) : wp effects inv p.release post own :=
  replacesEnd_release.wp h fun _ _ ho => ho

/-- A script has the lock from its start to its end. -/
theorem wp_withLock (h : ∀ memory, inv.guarded memory →
    wp effects inv p (fun o own => ∃ memory, own = some memory ∧ inv.guarded memory ∧ post o none)
      (some memory)) : wp effects inv p.withLock post none :=
  ⟨rfl, fun memory hmemory => wp_release (h memory hmemory)⟩

/-- Errors become crashes. -/
theorem wp_unwrap {ε' : Type} {post : Outcome ε' R → Option τ → Prop}
    (h : wp effects inv p (fun o own => post o.unwrap own) own) :
    wp effects inv (p.unwrap : Script E F A B ε' R) post own :=
  replacesEnd_unwrap.wp h fun _ _ ho => ho

/-- An effect on the shared part is awaited. -/
theorem wp_ask {e : E} {post : Outcome ε (A e) → Option τ → Prop}
    (h : ∀ memory a memory', inv.shared memory → effects.shared e memory a memory' →
      inv.shared memory' ∧ post (.ok a) own) :
    wp effects inv (ask e : Script E F A B ε (A e)) post own :=
  h

/-- An effect on the guarded part is awaited by a script that has the lock. -/
theorem wp_askGuarded {g : F} {memory : τ} {post : Outcome ε (B g) → Option τ → Prop}
    (h : ∀ b memory', effects.guarded g memory b memory' → post (.ok b) (some memory')) :
    wp effects inv (askGuarded g : Script E F A B ε (B g)) post (some memory) :=
  ⟨memory, rfl, h⟩

/-! ## Scripts that compute -/

variable (effects inv) in
/-- A script always ends with this outcome, and it leaves the lock and the guarded part alone. -/
def Computes (p : Script E F A B ε R) (c : Outcome ε R) : Prop :=
  ∀ own, wp effects inv p (fun o own' => o = c ∧ own' = own) own

/-- An outcome that is there computes itself. -/
theorem computes_done (c : Outcome ε R) : Computes effects inv (.done c) c :=
  fun _ => ⟨rfl, rfl⟩

/-- An effect that always has the same answer computes it. -/
theorem computes_ask {e : E} {a : A e}
    (h : ∀ memory a' memory', inv.shared memory → effects.shared e memory a' memory' →
      inv.shared memory' ∧ a' = a) :
    Computes effects inv (ask e : Script E F A B ε (A e)) (.ok a) := by
  refine fun own => wp_ask fun memory a' memory' hmemory heffect => ?_
  obtain ⟨hmemory', rfl⟩ := h memory a' memory' hmemory heffect
  exact ⟨hmemory', rfl, rfl⟩

/-- A script goes on with what was computed. -/
theorem Computes.bind {c : Outcome ε R} {g : R → Outcome ε R'} (h : Computes effects inv p c)
    (hf : ∀ r, c = .ok r → Computes effects inv (f r) (g r)) :
    Computes effects inv (p >>= f) (c >>= g) := by
  intro own
  refine wp_bind (wp_mono (h own) fun o own' ho => ?_)
  obtain ⟨rfl, rfl⟩ := ho
  cases o with
  | ok r => exact hf r rfl own'
  | error e => exact ⟨rfl, rfl⟩
  | crashed => exact ⟨rfl, rfl⟩

/-- What has been computed is gone on with. -/
theorem Computes.wp_bind {c : Outcome ε R} {post : Outcome ε R' → Option τ → Prop}
    (h : Computes effects inv p c) (hf : thenPost effects inv f post c own) :
    wp effects inv (p >>= f) post own := by
  refine Script.wp_bind (wp_mono (h own) fun o own' ho => ?_)
  obtain ⟨rfl, rfl⟩ := ho
  exact hf

/-! ## Scripts with several outcomes -/

variable (effects inv) in
/-- A script that does not have the lock at first ends in one of these ways, and without the
lock. -/
abbrev Yields (p : Script E F A B ε R) (c : Possible ε R) : Prop :=
  wp effects inv p (fun o own => own = none ∧ c o) none

variable {c : Possible ε R} {g : R → Possible ε R'}

/-- A script that always ends in one way. -/
theorem Computes.yields {o : Outcome ε R} (h : Computes effects inv p o) (hc : c o) :
    Yields effects inv p c := by
  refine wp_mono (h none) fun o' own ho => ?_
  obtain ⟨rfl, rfl⟩ := ho
  exact ⟨rfl, hc⟩

/-- A script goes on from any of its results. -/
theorem Yields.bind (h : Yields effects inv p c) (hf : ∀ r, Yields effects inv (f r) (g r)) :
    Yields effects inv (p >>= f) (c >>= g) := by
  refine Script.wp_bind (wp_mono h fun o own ho => ?_)
  obtain ⟨rfl, hc⟩ := ho
  cases o with
  | ok r => exact wp_mono (hf r) fun o own ho => ⟨ho.1, .ok r, hc, ho.2⟩
  | error e => exact ⟨rfl, .error e, hc, rfl⟩
  | crashed => exact ⟨rfl, .crashed, hc, rfl⟩

/-! ## All scripts together -/

/-- What a script knows of the guarded part: all of it if it has the lock. -/
def World.owned (w : World ι E F σ τ ε R A B) (i : ι) : Option τ :=
  if w.holder = some i then some w.guarded else none

variable {w w' : World ι E F σ τ ε R A B} {good : ι → Outcome ε R → Prop} {i : ι}

/-- A script that knows the guarded part has the lock. -/
theorem World.owned_eq_some {memory : τ} :
    w.owned i = some memory ↔ w.holder = some i ∧ w.guarded = memory := by
  unfold World.owned
  by_cases hheld : w.holder = some i <;> simp [hheld]

/-- A script that does not have the lock knows nothing. -/
theorem World.owned_eq_none (h : w.holder ≠ some i) : w.owned i = none :=
  if_neg h

variable (effects inv) in
/-- The invariant is kept, and every script ends well and without the lock. -/
structure World.Holds (w : World ι E F σ τ ε R A B) (good : ι → Outcome ε R → Prop) : Prop where
  shared : inv.shared w.shared
  guarded : w.holder = none → inv.guarded w.guarded
  scripts : ∀ i, wp effects inv (w.scripts i) (fun o own => own = none ∧ good i o) (w.owned i)

/-- A script goes on, and the other scripts know what they knew. -/
theorem World.Holds.update (h : w.Holds effects inv good) {q : Script E F A B ε R}
    {holder : Option ι} {shared : σ} {guarded : τ} (hshared : inv.shared shared)
    (hguarded : holder = none → inv.guarded guarded)
    (hq : wp effects inv q (fun o own => own = none ∧ good i o)
      (if holder = some i then some guarded else none))
    (hothers : ∀ j, j ≠ i → (if holder = some j then some guarded else none) = w.owned j) :
    World.Holds effects inv ⟨Function.update w.scripts i q, holder, shared, guarded⟩ good := by
  refine ⟨hshared, hguarded, fun j => ?_⟩
  show wp effects inv (Function.update w.scripts i q j) (fun o own => own = none ∧ good j o)
    (if holder = some j then some guarded else none)
  by_cases hj : j = i
  · subst hj
    rw [Function.update_self]
    exact hq
  · rw [Function.update_of_ne hj, hothers j hj]
    exact h.scripts j

/-- A step keeps what holds. -/
theorem World.Holds.step (h : w.Holds effects inv good) (hstep : Step effects w w') :
    w'.Holds effects inv good := by
  cases hstep with
  | @lock i k hi hfree =>
      have hscript := h.scripts i
      rw [hi] at hscript
      refine h.update h.shared (fun hnone => nomatch hnone) ?_ fun j hj => ?_
      · rw [if_pos rfl]
        exact hscript.2 _ (h.guarded hfree)
      · rw [if_neg fun heq => hj (Option.some.inj heq).symm, World.owned_eq_none]
        rw [hfree]
        exact nofun
  | @unlock i k hi =>
      have hscript := h.scripts i
      rw [hi] at hscript
      obtain ⟨memory, hown, hmemory, hk⟩ := hscript
      obtain ⟨hholder, rfl⟩ := World.owned_eq_some.mp hown
      refine h.update h.shared (fun _ => hmemory) hk fun j hj => (World.owned_eq_none ?_).symm
      rw [hholder]
      exact fun heq => hj (Option.some.inj heq).symm
  | @shared i e k a memory hi heffect =>
      have hscript := h.scripts i
      rw [hi] at hscript
      obtain ⟨hmemory, hk⟩ := hscript _ _ _ h.shared heffect
      exact h.update hmemory h.guarded hk fun j _ => rfl
  | @guarded i f k b memory hi heffect =>
      have hscript := h.scripts i
      rw [hi] at hscript
      obtain ⟨memory', hown, hk⟩ := hscript
      obtain ⟨hholder, rfl⟩ := World.owned_eq_some.mp hown
      refine h.update h.shared (fun hnone => ?_) ?_ fun j hj => ?_
      · cases hholder.symm.trans hnone
      · rw [if_pos hholder]
        exact hk _ _ heffect
      · have hne : w.holder ≠ some j := by
          rw [hholder]
          exact fun heq => hj (Option.some.inj heq).symm
        rw [if_neg hne, World.owned_eq_none hne]

/-- Taking turns keeps what holds. -/
theorem World.Holds.of_reaches (h : w.Holds effects inv good) (hreaches : Reaches effects w w') :
    w'.Holds effects inv good := by
  induction hreaches with
  | refl => exact h
  | tail _ hstep ih => exact ih.step hstep

/-- Scripts that are shown to end well for themselves hold when they start without the lock. -/
theorem holds_start {scripts : ι → Script E F A B ε R} {shared : σ} {guarded : τ}
    (hshared : inv.shared shared) (hguarded : inv.guarded guarded)
    (h : ∀ i, wp effects inv (scripts i) (fun o own => own = none ∧ good i o) none) :
    World.Holds effects inv ⟨scripts, none, shared, guarded⟩ good :=
  ⟨hshared, fun _ => hguarded, h⟩

/-- A script that has come to its end has ended well. -/
theorem World.Holds.good_of_done (h : w.Holds effects inv good) {o : Outcome ε R}
    (hi : w.scripts i = .done o) : good i o := by
  have hscript := h.scripts i
  rw [hi] at hscript
  exact hscript.2

/-- A script that works on the guarded part has the lock. -/
theorem World.Holds.holder_eq (h : w.Holds effects inv good) {f : F}
    {k : B f → Script E F A B ε R} (hi : w.scripts i = .guarded f k) : w.holder = some i := by
  have hscript := h.scripts i
  rw [hi] at hscript
  obtain ⟨memory, hown, -⟩ := hscript
  exact (World.owned_eq_some.mp hown).1

/-! ## Coming to an end -/

variable (effects inv) in
/-- Every effect can be answered. -/
structure Answering : Prop where
  shared : ∀ e memory, inv.shared memory → ∃ a memory', effects.shared e memory a memory'
  guarded : ∀ f memory, ∃ b memory', effects.guarded f memory b memory'

variable (effects) in
/-- A script can be brought to its end while the others stay where they are. -/
def World.CanEnd (w : World ι E F σ τ ε R A B) (i : ι) : Prop :=
  ∃ w', Reaches effects w w' ∧ w'.Ended i ∧ w'.holder = none ∧
    ∀ j, j ≠ i → w'.scripts j = w.scripts j

/-- A script makes a step and can be brought to its end after it. -/
theorem World.CanEnd.of_step {k : Script E F A B ε R} (hstep : Step effects w w')
    (hscripts : w'.scripts = Function.update w.scripts i k) (h : w'.CanEnd effects i) :
    w.CanEnd effects i := by
  obtain ⟨w'', hreaches, hended, hholder, hothers⟩ := h
  refine ⟨w'', .head hstep hreaches, hended, hholder, fun j hj => ?_⟩
  rw [hothers j hj, hscripts, Function.update_of_ne hj]

/-- A script that can have the lock can be brought to its end. The induction is on the script. -/
theorem World.Holds.canEnd (hanswering : Answering effects inv) (h : w.Holds effects inv good)
    (hfree : w.holder = none ∨ w.holder = some i) : w.CanEnd effects i := by
  obtain ⟨p, hp⟩ : ∃ p, w.scripts i = p := ⟨_, rfl⟩
  induction p generalizing w with
  | done o =>
      have hscript := h.scripts i
      rw [hp] at hscript
      refine ⟨w, .refl, ⟨o, hp⟩, hfree.resolve_right fun hheld => ?_, fun _ _ => rfl⟩
      cases (World.owned_eq_some.mpr ⟨hheld, rfl⟩).symm.trans hscript.1
  | lock k ih =>
      have hscript := h.scripts i
      rw [hp] at hscript
      have hnone : w.holder = none := by
        refine hfree.resolve_right fun hheld => ?_
        cases (World.owned_eq_some.mpr ⟨hheld, rfl⟩).symm.trans hscript.1
      have hstep : Step effects w _ := .lock hp hnone
      exact .of_step hstep rfl (ih (h.step hstep) (.inr rfl) (Function.update_self ..))
  | unlock k ih =>
      have hstep : Step effects w _ := .unlock hp
      exact .of_step hstep rfl (ih (h.step hstep) (.inl rfl) (Function.update_self ..))
  | shared e k ih =>
      obtain ⟨a, memory, heffect⟩ := hanswering.shared e w.shared h.shared
      have hstep := Step.shared hp heffect
      exact .of_step hstep rfl (ih a (h.step hstep) hfree (Function.update_self ..))
  | guarded f k ih =>
      obtain ⟨b, memory, heffect⟩ := hanswering.guarded f w.guarded
      have hstep := Step.guarded hp heffect
      exact .of_step hstep rfl (ih b (h.step hstep) hfree (Function.update_self ..))

/-- The lock can be given back. -/
theorem World.Holds.exists_free (hanswering : Answering effects inv)
    (h : w.Holds effects inv good) : ∃ w', Reaches effects w w' ∧ w'.holder = none := by
  cases hholder : w.holder with
  | none => exact ⟨w, .refl, hholder⟩
  | some i =>
      obtain ⟨w', hreaches, -, hfree, -⟩ := h.canEnd hanswering (.inr hholder)
      exact ⟨w', hreaches, hfree⟩

/-- From every state that is reached, any of the scripts can all be brought to their ends. The
induction is on these scripts, which end one after the other. -/
theorem World.Holds.reaches_ended (hanswering : Answering effects inv)
    (h : w.Holds effects inv good) (some : Finset ι) :
    ∃ w', Reaches effects w w' ∧ w'.holder = none ∧ ∀ i ∈ some, w'.Ended i := by
  induction some using Finset.induction_on with
  | empty =>
      obtain ⟨w', hreaches, hfree⟩ := h.exists_free hanswering
      exact ⟨w', hreaches, hfree, fun i hi => nomatch hi⟩
  | insert i some hi ih =>
      obtain ⟨w', hreaches, hfree, hended⟩ := ih
      obtain ⟨w'', hreaches', hended', hfree', hothers⟩ :=
        (h.of_reaches hreaches).canEnd (i := i) hanswering (.inl hfree)
      refine ⟨w'', hreaches.trans hreaches', hfree', fun j hj => ?_⟩
      by_cases heq : j = i
      · subst heq
        exact hended'
      · obtain ⟨o, ho⟩ := hended j ((Finset.mem_insert.mp hj).resolve_left heq)
        exact ⟨o, by rw [hothers j heq, ho]⟩

/-- When no step can be made, all scripts have come to their ends and nobody has the lock. -/
theorem World.Holds.ended_of_stuck [Finite ι] (hanswering : Answering effects inv)
    (h : w.Holds effects inv good) (hstuck : ∀ w', ¬ Step effects w w') :
    w.holder = none ∧ ∀ i, w.Ended i := by
  have := Fintype.ofFinite ι
  obtain ⟨w', hreaches, hfree, hended⟩ := h.reaches_ended hanswering Finset.univ
  rcases hreaches.cases_head with rfl | ⟨w'', hstep, -⟩
  · exact ⟨hfree, fun i => hended i (Finset.mem_univ i)⟩
  · exact (hstuck w'' hstep).elim

/-- A script can go on as another one. -/
inductive GoesOn : Script E F A B ε R → Script E F A B ε R → Prop where
  | lock (k : Script E F A B ε R) : GoesOn k (.lock k)
  | unlock (k : Script E F A B ε R) : GoesOn k (.unlock k)
  | shared (e : E) (k : A e → Script E F A B ε R) (a : A e) : GoesOn (k a) (.shared e k)
  | guarded (f : F) (k : B f → Script E F A B ε R) (b : B f) : GoesOn (k b) (.guarded f k)

/-- A script does not go on forever. -/
theorem wellFounded_goesOn : WellFounded fun q p : Script E F A B ε R => q.GoesOn p := by
  refine ⟨fun p => ?_⟩
  induction p with
  | done o => exact ⟨_, fun q hq => nomatch hq⟩
  | lock k ih =>
      refine ⟨_, fun q hq => ?_⟩
      cases hq
      exact ih
  | unlock k ih =>
      refine ⟨_, fun q hq => ?_⟩
      cases hq
      exact ih
  | shared e k ih =>
      refine ⟨_, fun q hq => ?_⟩
      cases hq
      exact ih _
  | guarded f k ih =>
      refine ⟨_, fun q hq => ?_⟩
      cases hq
      exact ih _

/-- In a step, one of the scripts goes on. -/
theorem Step.exists_goesOn (hstep : Step effects w w') : ∃ i k, GoesOn k (w.scripts i) ∧
    w'.scripts = Function.update w.scripts i k := by
  cases hstep with
  | lock hi _ => exact ⟨_, _, hi ▸ .lock _, rfl⟩
  | unlock hi => exact ⟨_, _, hi ▸ .unlock _, rfl⟩
  | shared hi _ => exact ⟨_, _, hi ▸ .shared _ _ _, rfl⟩
  | guarded hi _ => exact ⟨_, _, hi ▸ .guarded _ _ _, rfl⟩

/-- Finitely many scripts do not take turns forever. Each step replaces one script by one that it
goes on as, in the multiset of all scripts. -/
theorem wellFounded_step [Finite ι] :
    WellFounded fun w' w : World ι E F σ τ ε R A B => Step effects w w' := by
  have := Fintype.ofFinite ι
  refine Subrelation.wf ?_ (InvImage.wf (fun w : World ι E F σ τ ε R A B =>
    Finset.univ.val.map w.scripts) wellFounded_goesOn.cutExpand)
  intro w' w hstep
  obtain ⟨i, k, hgoesOn, hscripts⟩ := hstep.exists_goesOn
  refine ⟨{k}, w.scripts i, fun q hq => ?_, ?_⟩
  · rw [Multiset.mem_singleton.mp hq]
    exact hgoesOn
  · have hothers : (Finset.univ.val.erase i).map w'.scripts =
        (Finset.univ.val.erase i).map w.scripts := by
      refine Multiset.map_congr rfl fun j hj => ?_
      have hne : j ≠ i := (Finset.mem_erase.mp hj).1
      rw [hscripts, Function.update_of_ne hne]
    have hself : w'.scripts i = k := by
      rw [hscripts, Function.update_self]
    show Multiset.map w'.scripts Finset.univ.val + _ = Multiset.map w.scripts Finset.univ.val + _
    rw [← Multiset.cons_erase (show i ∈ Finset.univ.val from Finset.mem_univ i),
      Multiset.map_cons, Multiset.map_cons, hothers, hself, ← Multiset.singleton_add,
      ← Multiset.singleton_add, add_right_comm, add_assoc, add_comm]

/-- No step can be made exactly when all scripts have come to their ends, without the lock. -/
theorem World.Holds.stuck_iff [Finite ι] (hanswering : Answering effects inv)
    (h : w.Holds effects inv good) :
    (∀ w', ¬ Step effects w w') ↔ w.holder = none ∧ ∀ i, w.Ended i := by
  refine ⟨h.ended_of_stuck hanswering, fun ⟨_, hended⟩ w' hstep => ?_⟩
  obtain ⟨i, k, hgoesOn, -⟩ := hstep.exists_goesOn
  obtain ⟨o, ho⟩ := hended i
  rw [ho] at hgoesOn
  cases hgoesOn

variable (effects w) in
/-- Scripts can take turns for as long as they can. -/
theorem exists_run : ∃ run : ℕ → World ι E F σ τ ε R A B, run 0 = w ∧
    ∀ n, (∃ w', Step effects (run n) w') → Step effects (run n) (run (n + 1)) := by
  classical
  let next (w : World ι E F σ τ ε R A B) : World ι E F σ τ ε R A B :=
    if h : ∃ w', Step effects w w' then h.choose else w
  refine ⟨fun n => next^[n] w, rfl, fun n hsome => ?_⟩
  have hnext : next^[n + 1] w = hsome.choose := by
    rw [Function.iterate_succ_apply']
    exact dif_pos hsome
  show Step effects (next^[n] w) (next^[n + 1] w)
  rw [hnext]
  exact hsome.choose_spec

/-- Finitely many scripts that take turns for as long as they can all come to their ends, whoever
takes the turns. The induction is on the steps that can still be made. -/
theorem World.Holds.ended_of_run [Finite ι] (hanswering : Answering effects inv)
    (h : w.Holds effects inv good) {run : ℕ → World ι E F σ τ ε R A B} (hstart : run 0 = w)
    (hrun : ∀ n, (∃ w', Step effects (run n) w') → Step effects (run n) (run (n + 1))) :
    ∃ n, Reaches effects w (run n) ∧ (run n).holder = none ∧ ∀ i, (run n).Ended i := by
  have hacc : Acc (fun w' w => Step effects w w') w := wellFounded_step.apply w
  induction hacc generalizing run with
  | intro w _ ih =>
      subst hstart
      by_cases hstuck : ∃ w', Step effects (run 0) w'
      · have hstep := hrun 0 hstuck
        obtain ⟨n, hreaches, hended⟩ := ih (run 1) hstep (h.step hstep)
          (show (fun n => run (n + 1)) 0 = run 1 from rfl) fun n => hrun (n + 1)
        exact ⟨n + 1, hreaches.head hstep, hended⟩
      · exact ⟨0, .refl, h.ended_of_stuck hanswering (not_exists.mp hstuck)⟩

/-! ## Orderly scripts -/

/-- A script that awaits shared effects like these only. -/
def Awaits (P : E → Prop) : Script E F A B ε R → Prop
  | .done _ => True
  | .lock k => k.Awaits P
  | .unlock k => k.Awaits P
  | .shared e k => P e ∧ ∀ a, (k a).Awaits P
  | .guarded _ k => ∀ b, (k b).Awaits P

/-- A script that awaits shared effects like these only, and that takes the lock, gives it back and
works on the guarded part when it should, from having the lock now or not to having it at the
end or not. -/
def Orderly (P : E → Prop) (last : Bool) : (now : Bool) → Script E F A B ε R → Prop
  | now, .done _ => now = last
  | now, .lock k => now = false ∧ k.Orderly P last true
  | now, .unlock k => now = true ∧ k.Orderly P last false
  | now, .shared e k => P e ∧ ∀ a, (k a).Orderly P last now
  | now, .guarded _ k => now = true ∧ ∀ b, (k b).Orderly P last now

variable {P : E → Prop} {last now : Bool}

/-- A script is orderly up to its end, whatever is put in the place of the end. -/
theorem ReplacesEnd.orderly {ε' : Type} {t : Script E F A B ε R → Script E F A B ε' R'}
    (ht : ReplacesEnd t) {last' : Bool} (h : p.Orderly P last now)
    (hend : ∀ o, (t (.done o)).Orderly P last' last) : (t p).Orderly P last' now := by
  induction p generalizing now with
  | done o =>
      obtain rfl : now = last := h
      exact hend o
  | lock k ih =>
      rw [ht.lock]
      exact ⟨h.1, ih h.2⟩
  | unlock k ih =>
      rw [ht.unlock]
      exact ⟨h.1, ih h.2⟩
  | shared e k ih =>
      rw [ht.shared]
      exact ⟨h.1, fun a => ih a (h.2 a)⟩
  | guarded g k ih =>
      rw [ht.guarded]
      exact ⟨h.1, fun b => ih b (h.2 b)⟩

/-- Orderly scripts go on in an orderly way. -/
theorem Orderly.bind (h : p.Orderly P last now) (hf : ∀ r, (f r).Orderly P last last) :
    (p >>= f).Orderly P last now := by
  refine (replacesEnd_bind f).orderly h fun o => ?_
  cases o with
  | ok r => exact hf r
  | error e => exact rfl
  | crashed => exact rfl

/-- Awaiting a shared effect is orderly. -/
theorem orderly_ask {e : E} (he : P e) :
    (ask e : Script E F A B ε (A e)).Orderly P now now :=
  ⟨he, fun _ => rfl⟩

/-- Awaiting a guarded effect is orderly while having the lock. -/
theorem orderly_askGuarded {g : F} :
    (askGuarded g : Script E F A B ε (B g)).Orderly P true true :=
  ⟨rfl, fun _ => rfl⟩

/-- Giving the lock back at the end is orderly. -/
theorem Orderly.release (h : p.Orderly P true now) : p.release.Orderly P false now :=
  replacesEnd_release.orderly h fun _ => ⟨rfl, rfl⟩

/-- Running an orderly script while having the lock is orderly. -/
theorem Orderly.withLock (h : p.Orderly P true true) : p.withLock.Orderly P false false :=
  ⟨rfl, h.release⟩

/-- Crashing instead of ending with an error is orderly. -/
theorem Orderly.unwrap {ε' : Type} (h : p.Orderly P last now) :
    (p.unwrap : Script E F A B ε' R).Orderly P last now :=
  replacesEnd_unwrap.orderly h fun _ => rfl

/-- Orderly scripts await what they may. -/
theorem Orderly.awaits (h : p.Orderly P last now) : p.Awaits P := by
  induction p generalizing now with
  | done o => trivial
  | lock k ih => exact ih h.2
  | unlock k ih => exact ih h.2
  | shared e k ih => exact ⟨h.1, fun a => ih a (h.2 a)⟩
  | guarded g k ih => exact fun b => ih b (h.2 b)

/-- Orderly scripts end without the lock, whatever is in the memory. -/
theorem Orderly.wp (h : p.Orderly P false now) {own : Option τ} (hown : own.isSome = now) :
    Script.wp effects ⟨fun _ => True, fun _ => True⟩ p (fun _ own => own = none) own := by
  induction p generalizing now own with
  | done o =>
      obtain rfl : now = false := h
      exact Option.isSome_eq_false_iff.mp hown |> Option.isNone_iff_eq_none.mp
  | lock k ih =>
      obtain ⟨rfl, hk⟩ := h
      refine ⟨Option.isNone_iff_eq_none.mp (Option.isSome_eq_false_iff.mp hown), ?_⟩
      exact fun memory _ => ih hk rfl
  | unlock k ih =>
      obtain ⟨rfl, hk⟩ := h
      obtain ⟨memory, rfl⟩ := Option.isSome_iff_exists.mp hown
      exact ⟨memory, rfl, trivial, ih hk rfl⟩
  | shared e k ih => exact fun _ a _ _ _ => ⟨trivial, ih a (h.2 a) hown⟩
  | guarded g k ih =>
      obtain ⟨rfl, hk⟩ := h
      obtain ⟨memory, rfl⟩ := Option.isSome_iff_exists.mp hown
      exact ⟨memory, rfl, fun b _ _ => ih b (hk b) rfl⟩

/-- Scripts that are orderly hold when they start. -/
theorem holds_of_orderly {scripts : ι → Script E F A B ε R} {shared : σ} {guarded : τ}
    (h : ∀ i, (scripts i).Orderly P false false) :
    World.Holds effects ⟨fun _ => True, fun _ => True⟩ ⟨scripts, none, shared, guarded⟩
      fun _ _ => True :=
  holds_start trivial trivial fun i =>
    wp_mono ((h i).wp Option.isSome_none) fun _ _ hown => ⟨hown, trivial⟩

/-- A step leaves the scripts with what they may await. -/
theorem Step.awaits (hstep : Step effects w w') (h : ∀ i, (w.scripts i).Awaits P) (i : ι) :
    (w'.scripts i).Awaits P := by
  have hupdate {j : ι} {q : Script E F A B ε R} (hq : q.Awaits P) :
      (Function.update w.scripts j q i).Awaits P := by
    by_cases hij : i = j
    · subst hij
      rw [Function.update_self]
      exact hq
    · rw [Function.update_of_ne hij]
      exact h i
  cases hstep with
  | @lock j k hj _ =>
      have hscript := h j
      rw [hj] at hscript
      exact hupdate hscript
  | @unlock j k hj =>
      have hscript := h j
      rw [hj] at hscript
      exact hupdate hscript
  | @shared j e k a _ hj _ =>
      have hscript := h j
      rw [hj] at hscript
      exact hupdate (hscript.2 a)
  | @guarded j g k b _ hj _ =>
      have hscript := h j
      rw [hj] at hscript
      exact hupdate (hscript b)

/-- Effects that scripts do not await do not matter. -/
theorem Reaches.restrict {effects' : Effects E F A B σ τ}
    (hshared : ∀ e memory a memory', P e → effects.shared e memory a memory' →
      effects'.shared e memory a memory')
    (hguarded : effects'.guarded = effects.guarded) (h : ∀ i, (w.scripts i).Awaits P)
    (hreaches : Reaches effects w w') : Reaches effects' w w' ∧ ∀ i, (w'.scripts i).Awaits P := by
  induction hreaches with
  | refl => exact ⟨.refl, h⟩
  | @tail w₁ w₂ _ hstep ih =>
      obtain ⟨hreaches, hawaits⟩ := ih
      refine ⟨hreaches.tail ?_, hstep.awaits hawaits⟩
      cases hstep with
      | lock hi hfree => exact .lock hi hfree
      | unlock hi => exact .unlock hi
      | @shared i e k a memory hi heffect =>
          have hscript := hawaits i
          rw [hi] at hscript
          exact .shared hi (hshared _ _ _ _ hscript.1 heffect)
      | guarded hi heffect => exact .guarded hi (by rw [hguarded]; exact heffect)

end Script

end Async
