import Mathlib.Algebra.Group.Nat.Defs
import Mathlib.Data.List.Forall2

/-!
# Computations that may give up

Rust code that can panic or return an error is modelled in `Fallible`. Arithmetic on unsigned
integers is checked: it panics where the result does not fit, as it does in a build with overflow
checks.
-/

/-- Why a computation gives up: a panic, an error that is returned, constraints that the computed
witness does not satisfy, or a recursion that is cut off. -/
inductive Failure where
  | panicked
  | error (message : String)
  | unsatisfied
  | outOfFuel
deriving DecidableEq

/-- Computations that may give up. -/
abbrev Fallible := Except Failure

namespace Fallible

/-- `assert!`. -/
def assert (p : Prop) [Decidable p] : Fallible Unit :=
  if p then .ok () else .error .panicked

/-- `unwrap`. -/
def unwrap {α : Type} : Option α → Fallible α
  | some value => .ok value
  | none => .error .panicked

/-- `a - b` on unsigned integers. -/
def checkedSub (a b : ℕ) : Fallible ℕ :=
  if b ≤ a then .ok (a - b) else .error .panicked

/-- `a + b` on unsigned integers of 32 bits. -/
def checkedAdd (a b : ℕ) : Fallible ℕ :=
  if a + b < 2 ^ 32 then .ok (a + b) else .error .panicked

/-- `1 << k` on unsigned integers of this width. -/
def checkedShl (width k : ℕ) : Fallible ℕ :=
  if k < width then .ok (2 ^ k) else .error .panicked

/-- `xs[start..stop]`. -/
def slice {α : Type} (xs : List α) (start stop : ℕ) : Fallible (List α) :=
  if start ≤ stop ∧ stop ≤ xs.length then .ok (xs.extract start stop) else .error .panicked

variable {α β ε : Type}

@[simp] theorem assert_eq_ok {p : Prop} [Decidable p] {u : Unit} : assert p = .ok u ↔ p := by
  unfold assert
  split <;> simp [*]

@[simp] theorem checkedSub_eq_ok {a b c : ℕ} :
    checkedSub a b = .ok c ↔ b ≤ a ∧ c = a - b := by
  unfold checkedSub
  split <;> simp [*, eq_comm]

@[simp] theorem checkedAdd_eq_ok {a b c : ℕ} :
    checkedAdd a b = .ok c ↔ a + b < 2 ^ 32 ∧ c = a + b := by
  unfold checkedAdd
  by_cases h : a + b < 2 ^ 32
  · rw [if_pos h, Except.ok.injEq]
    exact ⟨fun hc => ⟨h, hc.symm⟩, fun hc => hc.2.symm⟩
  · rw [if_neg h]
    exact ⟨fun hc => (nomatch hc), fun hc => absurd hc.1 h⟩

@[simp] theorem unwrap_eq_ok {value : Option α} {a : α} :
    unwrap value = .ok a ↔ value = some a := by
  cases value <;> simp [unwrap]

@[simp] theorem checkedShl_eq_ok {width k n : ℕ} :
    checkedShl width k = .ok n ↔ k < width ∧ n = 2 ^ k := by
  unfold checkedShl
  split <;> simp [*, eq_comm]

@[simp] theorem slice_eq_ok {xs ys : List α} {start stop : ℕ} :
    slice xs start stop = .ok ys ↔
      (start ≤ stop ∧ stop ≤ xs.length) ∧ ys = xs.extract start stop := by
  unfold slice
  split <;> simp [*, eq_comm]

/-- A sequence succeeds when both parts do. -/
theorem bind_eq_ok {c : Except ε α} {f : α → Except ε β} {b : β} :
    (c >>= f) = .ok b ↔ ∃ a, c = .ok a ∧ f a = .ok b := by
  cases c with
  | error e => simp [bind, Except.bind]
  | ok a => simp [bind, Except.bind]

/-- A value is returned. -/
theorem pure_eq_ok {a b : α} : (pure a : Except ε α) = .ok b ↔ b = a := by
  simp [pure, Except.pure, eq_comm]

/-- Running a computation on every element of a list, when it is known where it succeeds and with
what result. -/
theorem mapM_eq_ok {f : α → Fallible β} {g : α → β} {prop : α → Prop} {xs : List α} {ys : List β}
    (h : ∀ x ∈ xs, ∀ y, f x = .ok y ↔ prop x ∧ y = g x) :
    xs.mapM f = .ok ys ↔ (∀ x ∈ xs, prop x) ∧ ys = xs.map g := by
  induction xs generalizing ys with
  | nil => simp [pure_eq_ok]
  | cons x xs ih =>
      have ih' (ys : List β) : xs.mapM f = .ok ys ↔ (∀ x ∈ xs, prop x) ∧ ys = xs.map g :=
        ih fun y hy => h y (by simp [hy])
      rw [List.mapM_cons]
      simp only [bind_eq_ok, pure_eq_ok, ih', h x (by simp), List.forall_mem_cons, List.map_cons]
      constructor
      · rintro ⟨_, ⟨hx, rfl⟩, _, ⟨hxs, rfl⟩, rfl⟩
        exact ⟨⟨hx, hxs⟩, rfl⟩
      · rintro ⟨⟨hx, hxs⟩, rfl⟩
        exact ⟨_, ⟨hx, rfl⟩, _, ⟨hxs, rfl⟩, rfl⟩

/-- Running a computation that succeeds on every element of a list. -/
theorem mapM_of_forall {f : α → Fallible β} {g : α → β} {xs : List α}
    (h : ∀ x ∈ xs, f x = .ok (g x)) : xs.mapM f = .ok (xs.map g) := by
  have heach (x : α) (hx : x ∈ xs) (y : β) : f x = .ok y ↔ True ∧ y = g x := by
    rw [h x hx, Except.ok.injEq, eq_comm, true_and]
  exact (mapM_eq_ok heach).mpr ⟨fun _ _ => trivial, rfl⟩

/-- Running a computation on every element of a list succeeds when it does on each of them. -/
theorem mapM_eq_ok_iff {f : α → Fallible β} {xs : List α} {ys : List β} :
    xs.mapM f = .ok ys ↔ List.Forall₂ (fun x y => f x = .ok y) xs ys := by
  induction xs generalizing ys with
  | nil => simp [pure_eq_ok]
  | cons x xs ih =>
      rw [List.mapM_cons]
      simp only [bind_eq_ok, pure_eq_ok, List.forall₂_cons_left_iff]
      constructor
      · rintro ⟨y, hy, ys', hys, rfl⟩
        exact ⟨y, ys', hy, ih.mp hys, rfl⟩
      · rintro ⟨y, ys', hy, hys, rfl⟩
        exact ⟨y, hy, ys', ih.mpr hys, rfl⟩

/-- Running a computation on every element of a list succeeds if it does on each of them. -/
theorem exists_mapM {f : α → Fallible β} {xs : List α} (h : ∀ x ∈ xs, ∃ y, f x = .ok y) :
    ∃ ys, xs.mapM f = .ok ys := by
  induction xs with
  | nil => exact ⟨[], rfl⟩
  | cons x xs ih =>
      obtain ⟨y, hy⟩ := h x (by simp)
      obtain ⟨ys, hys⟩ := ih fun x hx => h x (by simp [hx])
      exact ⟨y :: ys, mapM_eq_ok_iff.mpr (.cons hy (mapM_eq_ok_iff.mp hys))⟩

/-- There is one result for each element. -/
theorem length_mapM {f : α → Fallible β} {xs : List α} {ys : List β} (h : xs.mapM f = .ok ys) :
    ys.length = xs.length :=
  (mapM_eq_ok_iff.mp h).length_eq.symm

/-- Every result comes from an element. -/
theorem exists_of_mem_mapM {f : α → Fallible β} {xs : List α} {ys : List β} {y : β}
    (h : xs.mapM f = .ok ys) (hy : y ∈ ys) : ∃ x ∈ xs, f x = .ok y := by
  induction mapM_eq_ok_iff.mp h with
  | nil => cases hy
  | @cons x y' xs ys hhead htail ih =>
      rcases List.mem_cons.mp hy with rfl | hy
      · exact ⟨x, by simp, hhead⟩
      · obtain ⟨x', hx', hf⟩ := ih (mapM_eq_ok_iff.mpr htail) hy
        exact ⟨x', by simp [hx'], hf⟩

/-- Every element has a result. -/
theorem exists_mapM_of_mem {f : α → Fallible β} {xs : List α} {ys : List β} {x : α}
    (h : xs.mapM f = .ok ys) (hx : x ∈ xs) : ∃ y ∈ ys, f x = .ok y := by
  induction mapM_eq_ok_iff.mp h with
  | nil => cases hx
  | @cons x' y xs ys hhead htail ih =>
      rcases List.mem_cons.mp hx with rfl | hx
      · exact ⟨y, by simp, hhead⟩
      · obtain ⟨y', hy', hf⟩ := ih (mapM_eq_ok_iff.mpr htail) hx
        exact ⟨y', by simp [hy'], hf⟩

/-- The results are known when every single one is. -/
theorem eq_map_of_mapM {f : α → Fallible β} {g : α → β} {xs : List α} {ys : List β}
    (h : xs.mapM f = .ok ys) (hg : ∀ x y, f x = .ok y → y = g x) : ys = xs.map g := by
  induction mapM_eq_ok_iff.mp h with
  | nil => rfl
  | cons hhead htail ih => rw [List.map_cons, hg _ _ hhead, ih (mapM_eq_ok_iff.mpr htail)]

/-- A changed result is the change of a result. -/
theorem map_eq_ok {x : Fallible α} {f : α → β} {y : β} :
    Except.map f x = .ok y ↔ ∃ a, x = .ok a ∧ f a = y := by
  cases x <;> simp [Except.map]

/-- Changing results does not change failures. -/
theorem map_eq_error {x : Fallible α} {f : α → β} {failure : Failure} :
    Except.map f x = .error failure ↔ x = .error failure := by
  cases x <;> simp [Except.map]

/-- Changing each result of a loop changes the list of results. -/
theorem map_mapM {γ : Type} {f : α → Fallible β} {f' : α → Fallible γ} {g : β → γ}
    (h : ∀ x, Except.map g (f x) = f' x) (xs : List α) :
    Except.map (List.map g) (xs.mapM f) = xs.mapM f' := by
  induction xs with
  | nil => rfl
  | cons x xs ih =>
      rw [List.mapM_cons, List.mapM_cons, ← h x, ← ih]
      cases f x with
      | error failure => rfl
      | ok y => cases xs.mapM f <;> rfl

/-! ## Panics -/

/-- A computation that panics. -/
def Panics (c : Fallible α) : Prop :=
  c = .error .panicked

/-- A computation that fails in no other way than by a panic. -/
def OnlyPanics (c : Fallible α) : Prop :=
  ∀ failure, c = .error failure → failure = .panicked

/-- What succeeds does not panic. -/
theorem not_panics_of_ok {c : Fallible α} {a : α} (h : c = .ok a) : ¬ Panics c := by
  rw [Panics, h]
  exact nofun

/-- What can only panic, and does not, succeeds. -/
theorem OnlyPanics.exists_ok {c : Fallible α} (h : OnlyPanics c) (hc : ¬ Panics c) :
    ∃ a, c = .ok a := by
  cases c with
  | ok a => exact ⟨a, rfl⟩
  | error failure => exact absurd (congrArg _ (h failure rfl)) hc

theorem onlyPanics_ok (a : α) : OnlyPanics (.ok a : Fallible α) :=
  nofun

theorem onlyPanics_panic : OnlyPanics (.error .panicked : Fallible α) := by
  rintro _ ⟨⟩
  rfl

/-- A test that panics in one case only panics. -/
theorem onlyPanics_ite (p : Prop) [Decidable p] (a : α) :
    OnlyPanics (if p then .ok a else .error .panicked) := by
  split
  · exact onlyPanics_ok a
  · exact onlyPanics_panic

theorem onlyPanics_unwrap (value : Option α) : OnlyPanics (unwrap value) := by
  cases value with
  | none => exact onlyPanics_panic
  | some a => exact onlyPanics_ok a

/-- A sequence of parts that only panic only panics. -/
theorem OnlyPanics.bind {c : Fallible α} {f : α → Fallible β} (hc : OnlyPanics c)
    (hf : ∀ a, OnlyPanics (f a)) : OnlyPanics (c >>= f) := by
  cases c with
  | ok a => exact hf a
  | error failure =>
      rintro _ ⟨⟩
      exact hc failure rfl

/-- A loop over parts that only panic only panics. -/
theorem OnlyPanics.mapM {f : α → Fallible β} (hf : ∀ a, OnlyPanics (f a)) (xs : List α) :
    OnlyPanics (xs.mapM f) := by
  induction xs with
  | nil => exact onlyPanics_ok []
  | cons x xs ih =>
      rw [List.mapM_cons]
      exact (hf x).bind fun y => ih.bind fun ys => onlyPanics_ok _

/-! ## Ways to fail -/

/-- A computation that fails in no other ways than these. -/
def FailsWith (prop : Failure → Prop) (c : Fallible α) : Prop :=
  ∀ failure, c = .error failure → prop failure

/-- An error that is returned, as opposed to a panic. -/
def IsError (failure : Failure) : Prop :=
  ∃ message, failure = .error message

variable {prop prop' : Failure → Prop}

theorem failsWith_of_ok {c : Fallible α} {a : α} (h : c = .ok a) : FailsWith prop c := by
  rw [h]
  exact nofun

theorem FailsWith.mono {c : Fallible α} (h : FailsWith prop c)
    (hprop : ∀ failure, prop failure → prop' failure) : FailsWith prop' c :=
  fun failure hfailure => hprop failure (h failure hfailure)

/-- What only panics fails with a panic. -/
theorem OnlyPanics.failsWith {c : Fallible α} (h : OnlyPanics c) (hprop : prop .panicked) :
    FailsWith prop c :=
  fun failure hfailure => h failure hfailure ▸ hprop

/-- A sequence fails as its parts do. -/
theorem FailsWith.bind {c : Fallible α} {f : α → Fallible β} (hc : FailsWith prop c)
    (hf : ∀ a, c = .ok a → FailsWith prop (f a)) : FailsWith prop (c >>= f) := by
  cases c with
  | ok a => exact hf a rfl
  | error failure =>
      rintro _ ⟨⟩
      exact hc failure rfl

/-- A loop fails as its steps do. -/
theorem FailsWith.mapM {f : α → Fallible β} {xs : List α}
    (hf : ∀ x ∈ xs, FailsWith prop (f x)) : FailsWith prop (xs.mapM f) := by
  induction xs with
  | nil => exact failsWith_of_ok rfl
  | cons x xs ih =>
      rw [List.mapM_cons]
      refine (hf x (by simp)).bind fun y _ => ?_
      exact (ih fun x hx => hf x (by simp [hx])).bind fun ys _ => failsWith_of_ok rfl

end Fallible
