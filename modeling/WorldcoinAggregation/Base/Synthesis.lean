import Mathlib.Data.List.Basic

/-!
# Circuit synthesis with advice

A gadget is a program that builds part of a circuit: it computes assigned values, imposes
constraints on them, and may request an advice value that the prover chooses. Running a gadget
against a `Prover` either yields its output or fails because a constraint is violated.

`Sound c post` says that every prover that satisfies the constraints of `c` gets an output with
`post`, and `Tracks c post` also relates the output to the advice that was read. In the other
direction, `Replays c script out` says that a prover with this script satisfies the constraints
with output `out`, and `Honest c out` that the prover that assigns the computed values does. Each
has one rule for each way of building a gadget.
-/

namespace Synthesis

/-- Where advice values come from. The honest prover assigns the value each gadget computes for
itself; a scripted one assigns values fixed in advance, one for each request. -/
inductive Prover (ω : Type) where
  | honest
  | scripted (advice : List ω)

/-- Gadgets with advice values of type `ω`. -/
abbrev Synth (ω : Type) := StateT (Prover ω) Option

variable {ω α β : Type}

/-- Impose a constraint. -/
def require (p : Prop) [Decidable p] : Synth ω Unit :=
  fun prover => if p then some ((), prover) else none

/-- Synthesis itself fails, so there is no circuit. -/
def abort : Synth ω α :=
  fun _ => none

/-- Request an advice value, for which the gadget computes a default. -/
def advise (computed : ω) : Synth ω ω
  | .honest => some (computed, .honest)
  | .scripted [] => none
  | .scripted (value :: advice) => some (value, .scripted advice)

/-- Continue with a value that synthesis may fail to produce. -/
def lift : Option α → Synth ω α
  | some value => pure value
  | none => abort

/-- The output of a gadget whose constraints this prover satisfies. -/
def output (c : Synth ω α) (prover : Prover ω) : Option α :=
  (c.run prover).map Prod.fst

/-- Every prover that satisfies the constraints gets an output with this property. -/
def Sound (c : Synth ω α) (post : α → Prop) : Prop :=
  ∀ prover out rest, c.run prover = some (out, rest) → post out

/-- A prover with this script, and whatever follows it, satisfies the constraints and gets this
output. -/
def Replays (c : Synth ω α) (script : List ω) (out : α) : Prop :=
  ∀ left, c.run (.scripted (script ++ left)) = some (out, .scripted left)

/-- The honest prover satisfies the constraints and gets this output, and the values it assigns
can be written down as a script. -/
structure Honest (c : Synth ω α) (out : α) : Prop where
  run : c.run .honest = some (out, .honest)
  replay : ∃ script, Replays c script out

/-- An output obtained by some prover has every property the gadget guarantees. -/
theorem Sound.of_output {c : Synth ω α} {post : α → Prop} {prover : Prover ω} {out : α}
    (h : Sound c post) (hout : output c prover = some out) : post out := by
  simp only [output, Option.map_eq_some_iff] at hout
  obtain ⟨⟨value, rest⟩, hrun, rfl⟩ := hout
  exact h prover value rest hrun

/-- The output of an honestly satisfied gadget. -/
theorem Honest.output {c : Synth ω α} {out : α} (h : Honest c out) :
    output c .honest = some out := by
  simp [Synthesis.output, h.run]

/-- The output that a script leads to. -/
theorem Replays.output {c : Synth ω α} {script : List ω} {out : α} (h : Replays c script out) :
    output c (.scripted script) = some out := by
  have hrun := h []
  rw [List.append_nil] at hrun
  simp [Synthesis.output, hrun]

/-- A satisfied sequence has a satisfied first part. -/
theorem output_bind {c : Synth ω α} {f : α → Synth ω β} {prover : Prover ω} {out : β}
    (h : output (c >>= f) prover = some out) :
    ∃ value rest, output c prover = some value ∧ output (f value) rest = some out := by
  simp only [output, StateT.run_bind, Option.map_eq_some_iff, Option.bind_eq_bind,
    Option.bind_eq_some_iff] at h
  obtain ⟨result, ⟨⟨value, rest⟩, hfirst, hsecond⟩, hout⟩ := h
  refine ⟨value, rest, ?_, ?_⟩
  · simp [output, hfirst]
  · simp [output, hsecond, hout]

/-! ## Soundness rules -/

/-- Consequence. -/
theorem Sound.mono {c : Synth ω α} {post weaker : α → Prop} (h : Sound c post)
    (himp : ∀ out, post out → weaker out) : Sound c weaker :=
  fun prover out rest hrun => himp out (h prover out rest hrun)

/-- A pure value has any property that holds of it. -/
theorem Sound.pure {post : α → Prop} {value : α} (h : post value) :
    Sound (pure value : Synth ω α) post := by
  intro prover out rest hrun
  simp only [StateT.run_pure] at hrun
  cases hrun
  exact h

/-- Sequencing: what the first part guarantees may be assumed of the second. -/
theorem Sound.bind {c : Synth ω α} {f : α → Synth ω β} {mid : α → Prop} {post : β → Prop}
    (hc : Sound c mid) (hf : ∀ value, mid value → Sound (f value) post) :
    Sound (c >>= f) post := by
  intro prover out rest hrun
  rw [StateT.run_bind] at hrun
  obtain ⟨⟨value, after⟩, hfirst, hsecond⟩ := Option.bind_eq_some_iff.mp hrun
  exact hf value (hc prover value after hfirst) after out rest hsecond

/-- A satisfied constraint holds. -/
theorem Sound.require {p : Prop} [Decidable p] : Sound (require p : Synth ω Unit) fun _ => p := by
  intro prover out rest hrun
  by_cases hp : p
  · exact hp
  · simp [Synthesis.require, StateT.run, hp] at hrun

/-- A failing synthesis guarantees anything. -/
theorem Sound.abort {post : α → Prop} : Sound (abort : Synth ω α) post := by
  intro prover out rest hrun
  simp [Synthesis.abort, StateT.run] at hrun

/-- Nothing is known about an advice value. -/
theorem Sound.advise (computed : ω) : Sound (advise computed) fun _ => True :=
  fun _ _ _ _ => trivial

/-- A lifted value is the one that was produced. -/
theorem Sound.lift {value : Option α} :
    Sound (lift value : Synth ω α) fun out => value = some out := by
  cases value with
  | none => exact .abort
  | some value => exact .pure rfl

/-- An output is an output of some prover. -/
theorem Sound.output (c : Synth ω α) :
    Sound c fun out => ∃ prover, Synthesis.output c prover = some out := by
  intro prover out rest hrun
  exact ⟨prover, by rw [Synthesis.output, hrun, Option.map_some]⟩

/-- Running a gadget on every element of a list. -/
theorem Sound.mapM {f : α → Synth ω β} {rel : α → β → Prop} {inputs : List α}
    (h : ∀ a ∈ inputs, Sound (f a) (rel a)) :
    Sound (inputs.mapM f) fun outs => List.Forall₂ rel inputs outs := by
  induction inputs with
  | nil => exact .pure .nil
  | cons a inputs ih =>
      rw [List.mapM_cons]
      refine (h a (by simp)).bind fun b hb => ?_
      refine (ih fun x hx => h x (by simp [hx])).bind fun bs hbs => ?_
      exact .pure (.cons hb hbs)

/-- Two continuations that agree on every output of the first part. -/
theorem Sound.bind_congr {c : Synth ω α} {f g : α → Synth ω β} {mid : α → Prop} (hc : Sound c mid)
    (hfg : ∀ value, mid value → f value = g value) : (c >>= f) = (c >>= g) := by
  refine StateT.ext fun prover => ?_
  rw [StateT.run_bind, StateT.run_bind]
  refine Option.bind_congr fun result hresult => ?_
  rw [hfg result.1 (hc prover result.1 result.2 hresult)]

/-! ## Which advice is read -/

/-- A scripted prover hands out these advice values, in order, and is left with the rest of its
script. The honest prover stays honest. -/
def Draws (used : List ω) : Prover ω → Prover ω → Prop
  | .honest, rest => rest = .honest
  | .scripted advice, rest => ∃ left, advice = used ++ left ∧ rest = .scripted left

/-- Handing out one list after another. -/
theorem Draws.append {first second : List ω} {prover mid rest : Prover ω}
    (hfirst : Draws first prover mid) (hsecond : Draws second mid rest) :
    Draws (first ++ second) prover rest := by
  cases prover with
  | honest =>
      obtain rfl : mid = .honest := hfirst
      exact hsecond
  | scripted advice =>
      obtain ⟨left, rfl, rfl⟩ := hfirst
      obtain ⟨left', rfl, rfl⟩ := hsecond
      exact ⟨left', by simp, rfl⟩

/-- Nothing is handed out. -/
theorem Draws.nil (prover : Prover ω) : Draws [] prover prover := by
  cases prover with
  | honest => rfl
  | scripted advice => exact ⟨advice, rfl, rfl⟩

/-- Every prover that satisfies the constraints gets an output that `post` relates to the advice
it handed out. -/
def Tracks (c : Synth ω α) (post : List ω → α → Prop) : Prop :=
  ∀ prover out rest, c.run prover = some (out, rest) →
    ∃ used, Draws used prover rest ∧ post used out

/-- Consequence. -/
theorem Tracks.mono {c : Synth ω α} {post weaker : List ω → α → Prop}
    (h : Tracks c post) (himp : ∀ used out, post used out → weaker used out) :
    Tracks c weaker := by
  intro prover out rest hrun
  obtain ⟨used, hdraws, hpost⟩ := h prover out rest hrun
  exact ⟨used, hdraws, himp used out hpost⟩

/-- What holds whatever is read. -/
theorem Tracks.sound {c : Synth ω α} {post : List ω → α → Prop}
    (h : Tracks c post) : Sound c fun out => ∃ used, post used out := by
  intro prover out rest hrun
  obtain ⟨used, -, hpost⟩ := h prover out rest hrun
  exact ⟨used, hpost⟩

/-- The output that a scripted prover obtains is related to a front part of its script. -/
theorem Tracks.of_output {c : Synth ω α} {post : List ω → α → Prop} {advice : List ω} {out : α}
    (h : Tracks c post) (hout : output c (.scripted advice) = some out) :
    ∃ used left, advice = used ++ left ∧ post used out := by
  simp only [output, Option.map_eq_some_iff] at hout
  obtain ⟨⟨value, rest⟩, hrun, rfl⟩ := hout
  obtain ⟨used, ⟨left, hadvice, -⟩, hpost⟩ := h _ _ _ hrun
  exact ⟨used, left, hadvice, hpost⟩

/-- A pure value reads nothing. -/
theorem Tracks.pure {post : List ω → α → Prop} {value : α}
    (h : post [] value) : Tracks (pure value : Synth ω α) post := by
  intro prover out rest hrun
  simp only [StateT.run_pure] at hrun
  cases hrun
  exact ⟨[], .nil prover, h⟩

/-- Sequencing: the second part reads after the first. -/
theorem Tracks.bind {c : Synth ω α} {f : α → Synth ω β} {mid : List ω → α → Prop}
    {post : List ω → β → Prop} (hc : Tracks c mid)
    (hf : ∀ first value, mid first value →
      Tracks (f value) fun second out => post (first ++ second) out) :
    Tracks (c >>= f) post := by
  intro prover out rest hrun
  rw [StateT.run_bind] at hrun
  obtain ⟨⟨value, after⟩, hfirst, hsecond⟩ := Option.bind_eq_some_iff.mp hrun
  obtain ⟨first, hdraws, hmid⟩ := hc prover value after hfirst
  obtain ⟨second, hdraws', hpost⟩ := hf first value hmid after out rest hsecond
  exact ⟨first ++ second, hdraws.append hdraws', hpost⟩

/-- Sequencing two parts that read nothing. -/
theorem Tracks.bind_nil {c : Synth ω α} {f : α → Synth ω β}
    (hc : Tracks c fun used _ => used = [])
    (hf : ∀ value, Tracks (f value) fun used _ => used = []) :
    Tracks (c >>= f) fun used _ => used = [] := by
  refine hc.bind fun _ value h => ?_
  subst h
  exact hf value

/-- A satisfied sequence whose first part reads nothing hands the whole script to the second. -/
theorem Tracks.output_bind {c : Synth ω α} {f : α → Synth ω β} {advice : List ω} {out : β}
    (hnil : Tracks c fun used _ => used = [])
    (h : output (c >>= f) (.scripted advice) = some out) :
    ∃ value, output c (.scripted advice) = some value ∧
      output (f value) (.scripted advice) = some out := by
  simp only [output, StateT.run_bind, Option.map_eq_some_iff, Option.bind_eq_bind,
    Option.bind_eq_some_iff] at h
  obtain ⟨result, ⟨⟨value, rest⟩, hfirst, hsecond⟩, hout⟩ := h
  obtain ⟨used, ⟨left, hscript, rfl⟩, rfl⟩ := hnil _ _ _ hfirst
  rw [List.nil_append] at hscript
  subst hscript
  refine ⟨value, ?_, ?_⟩
  · simp [output, hfirst]
  · simp [output, hsecond, hout]

/-- A constraint reads nothing. -/
theorem Tracks.require {p : Prop} [Decidable p] :
    Tracks (require p : Synth ω Unit) fun used _ => used = [] ∧ p := by
  intro prover out rest hrun
  by_cases hp : p
  · simp only [Synthesis.require, StateT.run, hp, if_true, Option.some.injEq,
      Prod.mk.injEq] at hrun
    obtain ⟨-, rfl⟩ := hrun
    exact ⟨[], .nil prover, rfl, hp⟩
  · simp [Synthesis.require, StateT.run, hp] at hrun

/-- A failing synthesis reads anything. -/
theorem Tracks.abort {post : List ω → α → Prop} :
    Tracks (abort : Synth ω α) post := by
  intro prover out rest hrun
  simp [Synthesis.abort, StateT.run] at hrun

/-- A request reads the one value it returns. -/
theorem Tracks.advise {computed : ω} :
    Tracks (advise computed) fun used value => used = [value] := by
  intro prover out rest hrun
  cases prover with
  | honest =>
      simp only [Synthesis.advise, StateT.run, Option.some.injEq, Prod.mk.injEq] at hrun
      obtain ⟨rfl, rfl⟩ := hrun
      exact ⟨[computed], rfl, rfl⟩
  | scripted advice =>
      cases advice with
      | nil => simp [Synthesis.advise, StateT.run] at hrun
      | cons value advice =>
          simp only [Synthesis.advise, StateT.run, Option.some.injEq, Prod.mk.injEq] at hrun
          obtain ⟨rfl, rfl⟩ := hrun
          exact ⟨[value], ⟨advice, rfl, rfl⟩, rfl⟩

/-- A lifted value reads nothing. -/
theorem Tracks.lift {value : Option α} :
    Tracks (lift value : Synth ω α) fun used out => used = [] ∧ value = some out := by
  cases value with
  | none => exact .abort
  | some value => exact .pure ⟨rfl, rfl⟩

/-- What a constraint reads. -/
theorem Tracks.require_nil {p : Prop} [Decidable p] :
    Tracks (Synthesis.require p : Synth ω Unit) fun used _ => used = [] :=
  Tracks.require.mono fun _ _ h => h.1

/-- What lifting a value reads. -/
theorem Tracks.lift_nil {value : Option α} :
    Tracks (Synthesis.lift value : Synth ω α) fun used _ => used = [] :=
  Tracks.lift.mono fun _ _ h => h.1

/-- Running a gadget on every element of a list reads what it reads for each element in turn. -/
theorem Tracks.mapM {f : α → Synth ω β} {rel : α → List ω → β → Prop}
    {inputs : List α} (h : ∀ a ∈ inputs, Tracks (f a) (rel a)) :
    Tracks (inputs.mapM f) fun used outs =>
      ∃ pieces : List (List ω × β), used = (pieces.map Prod.fst).flatten ∧
        outs = pieces.map Prod.snd ∧ List.Forall₂ (fun a p => rel a p.1 p.2) inputs pieces := by
  induction inputs with
  | nil => exact .pure ⟨[], rfl, rfl, .nil⟩
  | cons a inputs ih =>
      rw [List.mapM_cons]
      refine (h a (by simp)).bind fun first b hb => ?_
      refine (ih fun x hx => h x (by simp [hx])).bind fun second bs hbs => ?_
      obtain ⟨pieces, rfl, rfl, hpieces⟩ := hbs
      exact .pure ⟨(first, b) :: pieces, by simp, rfl, .cons hb hpieces⟩

/-- Running a gadget with a determined output on every element of a list. -/
theorem Tracks.mapM_eq {f : α → Synth ω β} {g : α → β} {inputs : List α}
    (h : ∀ a ∈ inputs, Tracks (f a) fun _ b => b = g a) :
    Tracks (inputs.mapM f) fun _ bs => bs = inputs.map g := by
  induction inputs with
  | nil => exact .pure rfl
  | cons a inputs ih =>
      rw [List.mapM_cons]
      refine (h a (by simp)).bind fun _ b hb => ?_
      refine (ih fun x hx => h x (by simp [hx])).bind fun _ bs hbs => ?_
      exact .pure (by rw [hb, hbs, List.map_cons])

/-! ## Scripted runs -/

/-- A script may be written in another way. -/
theorem Replays.of_eq {c : Synth ω α} {script script' : List ω} {out : α}
    (h : Replays c script out) (heq : script = script') : Replays c script' out :=
  heq ▸ h

/-- A pure value needs no script. -/
theorem Replays.pure (value : α) : Replays (pure value : Synth ω α) [] value :=
  fun _ => rfl

/-- Sequencing appends scripts. -/
theorem Replays.bind {c : Synth ω α} {f : α → Synth ω β} {first second : List ω} {value : α}
    {out : β} (hc : Replays c first value) (hf : Replays (f value) second out) :
    Replays (c >>= f) (first ++ second) out := by
  intro left
  rw [List.append_assoc, StateT.run_bind, hc]
  exact hf left

/-- A constraint that holds needs no script. -/
theorem Replays.require {p : Prop} [Decidable p] (h : p) :
    Replays (require p : Synth ω Unit) [] () :=
  fun _ => if_pos h

/-- A request reads any one value. -/
theorem Replays.advise (computed value : ω) : Replays (advise computed) [value] value :=
  fun _ => rfl

/-- A value that is produced needs no script. -/
theorem Replays.lift {value : Option α} {out : α} (h : value = some out) :
    Replays (lift value : Synth ω α) [] out := by
  subst h
  exact .pure out

/-- Running a gadget on every element of a list, with one script for each of them. -/
theorem Replays.mapM {f : α → Synth ω β} {g : List ω → β} {inputs : List α}
    {scripts : List (List ω)} (h : List.Forall₂ (fun a script => Replays (f a) script (g script))
      inputs scripts) : Replays (inputs.mapM f) scripts.flatten (scripts.map g) := by
  induction h with
  | nil => exact .pure []
  | cons hhead _ ih =>
      rw [List.mapM_cons]
      exact Replays.of_eq (hhead.bind (ih.bind (.pure _))) (by simp)

/-! ## Honest runs -/

/-- A pure value. -/
theorem Honest.pure (value : α) : Honest (pure value : Synth ω α) value :=
  ⟨rfl, [], .pure value⟩

/-- Sequencing of honest runs. -/
theorem Honest.bind {c : Synth ω α} {f : α → Synth ω β} {value : α} {out : β}
    (hc : Honest c value) (hf : Honest (f value) out) : Honest (c >>= f) out := by
  obtain ⟨hfirst, first, hfirst'⟩ := hc
  obtain ⟨hsecond, second, hsecond'⟩ := hf
  exact ⟨by simp [StateT.run_bind, hfirst, hsecond], first ++ second, hfirst'.bind hsecond'⟩

/-- A constraint that holds is satisfied. -/
theorem Honest.require {p : Prop} [Decidable p] (h : p) :
    Honest (require p : Synth ω Unit) () :=
  ⟨if_pos h, [], .require h⟩

/-- An honestly satisfied gadget that reads nothing needs no script. -/
theorem Honest.replays_nil {c : Synth ω α} {out : α} (h : Honest c out)
    (hnil : Tracks c fun used _ => used = []) : Replays c [] out := by
  obtain ⟨script, hreplay⟩ := h.replay
  obtain ⟨used, ⟨left, hscript, hrest⟩, rfl⟩ := hnil _ _ _ (hreplay [])
  rw [List.append_nil, List.nil_append] at hscript
  obtain rfl : [] = left := (Prover.scripted.inj hrest)
  rwa [hscript] at hreplay

/-- The honest prover assigns the computed value. -/
theorem Honest.advise (computed : ω) : Honest (advise computed) computed :=
  ⟨rfl, [computed], .advise computed computed⟩

/-- A value that is produced. -/
theorem Honest.lift {value : Option α} {out : α} (h : value = some out) :
    Honest (lift value : Synth ω α) out := by
  subst h
  exact .pure out

/-- Running a gadget honestly on every element of a list. -/
theorem Honest.mapM {f : α → Synth ω β} {g : α → β} {inputs : List α}
    (h : ∀ a ∈ inputs, Honest (f a) (g a)) : Honest (inputs.mapM f) (inputs.map g) := by
  induction inputs with
  | nil => exact .pure []
  | cons a inputs ih =>
      rw [List.mapM_cons]
      refine (h a (by simp)).bind ?_
      refine (ih fun x hx => h x (by simp [hx])).bind ?_
      exact .pure _

end Synthesis
