import Mathlib.Data.List.Basic

/-!
# Contracts under re-entrant calls

A contract runs in calls. While a call waits for code that it called, other code may change its
own part of the world and may call the contract again, and every call may revert, which restores
the world to what it was when the call began. Other code makes calls of its own, whose reverts undo
the calls of the contract within them.

`Preserves` says that an invariant of the world and the contract's calls in flight is kept by
whatever goes forward. `Run.invariant` concludes that it holds throughout a run: reverts need no
proof, because the invariant held when the reverted call began (`Nested`).
-/

namespace CallStack

variable {World Call Frame : Type}

/-- A contract: how a call begins, how its frame runs up to the next external call, when it waits
for other code, when it is finished, and what other code may do to the world meanwhile. A frame
that cannot advance reverts. -/
structure Contract (World Call Frame : Type) where
  start : Call → Frame
  advance : World → Frame → Option (World × Frame)
  waits : Frame → Bool
  returns : Frame → Bool
  outside : World → World → Prop

/-- A call of the contract in flight, with the world in which it began. -/
structure InFlight (World Frame : Type) where
  entry : World
  frame : Frame

/-- A call in flight, of the contract or of other code. -/
inductive Activation (World Frame : Type) where
  | foreign (entry : World)
  | own (call : InFlight World Frame)

/-- The world in which a call began. -/
def Activation.entry : Activation World Frame → World
  | foreign entry => entry
  | own call => call.entry

/-- The world and the calls in flight, innermost first. -/
structure State (World Frame : Type) where
  world : World
  stack : List (Activation World Frame)

/-- The calls of the contract among the calls in flight. -/
def ownCalls : List (Activation World Frame) → List (InFlight World Frame)
  | [] => []
  | .foreign _ :: stack => ownCalls stack
  | .own call :: stack => call :: ownCalls stack

/-- Other code has control: no call of the contract is in flight, or the innermost one waits. -/
def Contract.Yields (c : Contract World Call Frame) (calls : List (InFlight World Frame)) : Prop :=
  ∀ call ∈ calls.head?, c.waits call.frame = true

/-- Other code has control while nothing is in flight. -/
theorem Contract.yields_nil (c : Contract World Call Frame) : c.Yields (ownCalls []) :=
  fun _ hcall => nomatch hcall

/-- One step, and the calls of the contract that begin with it. -/
inductive Step (c : Contract World Call Frame) :
    State World Frame → List Call → State World Frame → Prop where
  | enter {world : World} {stack : List (Activation World Frame)} (call : Call)
      (hyields : c.Yields (ownCalls stack)) :
      Step c ⟨world, stack⟩ [call] ⟨world, .own ⟨world, c.start call⟩ :: stack⟩
  | enterForeign {world : World} {stack : List (Activation World Frame)}
      (hyields : c.Yields (ownCalls stack)) :
      Step c ⟨world, stack⟩ [] ⟨world, .foreign world :: stack⟩
  | outside {world world' : World} {stack : List (Activation World Frame)}
      (hyields : c.Yields (ownCalls stack)) (h : c.outside world world') :
      Step c ⟨world, stack⟩ [] ⟨world', stack⟩
  | advance {world world' entry : World} {frame frame' : Frame}
      {stack : List (Activation World Frame)} (h : c.advance world frame = some (world', frame')) :
      Step c ⟨world, .own ⟨entry, frame⟩ :: stack⟩ [] ⟨world', .own ⟨entry, frame'⟩ :: stack⟩
  | ret {world entry : World} {frame : Frame} {stack : List (Activation World Frame)}
      (h : c.returns frame = true) :
      Step c ⟨world, .own ⟨entry, frame⟩ :: stack⟩ [] ⟨world, stack⟩
  | retForeign {world entry : World} {stack : List (Activation World Frame)} :
      Step c ⟨world, .foreign entry :: stack⟩ [] ⟨world, stack⟩
  | revert {world : World} {activation : Activation World Frame}
      {stack : List (Activation World Frame)} :
      Step c ⟨world, activation :: stack⟩ [] ⟨activation.entry, stack⟩

/-- A run, and the calls of the contract that begin in it. -/
inductive Run (c : Contract World Call Frame) (first : State World Frame) :
    List Call → State World Frame → Prop where
  | refl : Run c first [] first
  | tail {s s' : State World Frame} {calls entered : List Call} (hrun : Run c first calls s)
      (hstep : Step c s entered s') : Run c first (calls ++ entered) s'

variable {c : Contract World Call Frame} {s s' s'' : State World Frame} {calls calls' : List Call}

/-- Runs compose. -/
theorem Run.trans (h : Run c s calls s') (h' : Run c s' calls' s'') :
    Run c s (calls ++ calls') s'' := by
  induction h' with
  | refl => simpa using h
  | tail hrun hstep ih =>
      rw [← List.append_assoc]
      exact ih.tail hstep

/-- One step is a run. -/
theorem Step.run {entered : List Call} (h : Step c s entered s') : Run c s entered s' :=
  Run.refl.tail h

/-- A call ends by returning or by a revert, and a revert restores the world it began in. -/
theorem Step.ends {world : World} {call : InFlight World Frame}
    {stack : List (Activation World Frame)} {entered : List Call}
    (h : Step c ⟨world, .own call :: stack⟩ entered s) (hstack : s.stack = stack) :
    c.returns call.frame = true ∧ s.world = world ∨ s.world = call.entry := by
  cases h with
  | ret h => exact .inl ⟨h, rfl⟩
  | revert => exact .inr rfl
  | enter | enterForeign | outside | advance =>
      have hlen := congrArg List.length hstack
      simp only [List.length_cons] at hlen
      omega

/-- A frame runs to its end without interference. -/
inductive Completes (c : Contract World Call Frame) : World → Frame → World → Prop where
  | returns {world : World} {frame : Frame} (h : c.returns frame = true) :
      Completes c world frame world
  | advance {world world' world'' : World} {frame frame' : Frame}
      (h : c.advance world frame = some (world', frame'))
      (hrest : Completes c world' frame' world'') : Completes c world frame world''

/-- What runs to its end returns. -/
theorem Completes.run {world world' entry : World} {frame : Frame}
    {stack : List (Activation World Frame)} (h : Completes c world frame world') :
    Run c ⟨world, .own ⟨entry, frame⟩ :: stack⟩ [] ⟨world', stack⟩ := by
  induction h with
  | returns h => exact (Step.ret h).run
  | advance h _ ih => exact (Step.advance h).run.trans ih

/-- A call that runs to its end without interference. -/
theorem Completes.call {world world' : World} {call : Call} {stack : List (Activation World Frame)}
    (h : Completes c world (c.start call) world') (hyields : c.Yields (ownCalls stack)) :
    Run c ⟨world, stack⟩ [call] ⟨world', stack⟩ :=
  (Step.enter call hyields).run.trans h.run

/-! ## Invariants -/

/-- An invariant of the world and the contract's calls in flight that whatever goes forward keeps,
if the calls that begin are admitted. -/
structure Preserves (c : Contract World Call Frame) (admits : Call → Prop)
    (inv : World → List (InFlight World Frame) → Prop) : Prop where
  enter {world : World} {calls : List (InFlight World Frame)} {call : Call} (h : inv world calls)
    (hyields : c.Yields calls) (hadmits : admits call) :
    inv world (⟨world, c.start call⟩ :: calls)
  advance {world world' entry : World} {frame frame' : Frame}
    {calls : List (InFlight World Frame)} (h : inv world (⟨entry, frame⟩ :: calls))
    (hstep : c.advance world frame = some (world', frame')) :
    inv world' (⟨entry, frame'⟩ :: calls)
  ret {world entry : World} {frame : Frame} {calls : List (InFlight World Frame)}
    (h : inv world (⟨entry, frame⟩ :: calls)) (hreturns : c.returns frame = true) :
    inv world calls
  outside {world world' : World} {calls : List (InFlight World Frame)} (h : inv world calls)
    (hyields : c.Yields calls) (houtside : c.outside world world') : inv world' calls

/-- The invariant holds now, and it held below each call in flight when that call began. -/
def Nested (inv : World → List (InFlight World Frame) → Prop) :
    World → List (Activation World Frame) → Prop
  | world, [] => inv world []
  | world, activation :: stack =>
      inv world (ownCalls (activation :: stack)) ∧ Nested inv activation.entry stack

variable {admits : Call → Prop} {inv : World → List (InFlight World Frame) → Prop}

/-- The invariant holds now. -/
theorem Nested.now {world : World} {stack : List (Activation World Frame)}
    (h : Nested inv world stack) : inv world (ownCalls stack) := by
  cases stack with
  | nil => exact h
  | cons activation stack => exact h.1

/-- Another world in which the invariant holds. -/
theorem Nested.replace {world world' : World} {stack : List (Activation World Frame)}
    (h : Nested inv world stack) (hnow : inv world' (ownCalls stack)) :
    Nested inv world' stack := by
  cases stack with
  | nil => exact hnow
  | cons activation stack => exact ⟨hnow, h.2⟩

/-- One step keeps the invariant, now and below every call in flight. -/
theorem Step.nested {entered : List Call} (hpreserves : Preserves c admits inv)
    (hstep : Step c s entered s') (hadmits : ∀ call ∈ entered, admits call)
    (h : Nested inv s.world s.stack) : Nested inv s'.world s'.stack := by
  cases hstep with
  | enter call hyields =>
      exact ⟨hpreserves.enter h.now hyields (hadmits call (List.mem_singleton_self _)), h⟩
  | enterForeign hyields => exact ⟨h.now, h⟩
  | outside hyields houtside => exact h.replace (hpreserves.outside h.now hyields houtside)
  | advance hadvance => exact ⟨hpreserves.advance h.1 hadvance, h.2⟩
  -- a return leaves the world, a revert goes back to the one in which the invariant held
  | ret hreturns => exact h.2.replace (hpreserves.ret h.1 hreturns)
  | retForeign => exact h.2.replace h.1
  | revert => exact h.2

/-- A run keeps the invariant, now and below every call in flight. -/
theorem Run.nested (hpreserves : Preserves c admits inv) (hrun : Run c s calls s')
    (hadmits : ∀ call ∈ calls, admits call) (h : Nested inv s.world s.stack) :
    Nested inv s'.world s'.stack := by
  induction hrun with
  | refl => exact h
  | tail hrun hstep ih =>
      have hbefore := ih fun call hcall => hadmits call (List.mem_append_left _ hcall)
      exact hstep.nested hpreserves (fun call hcall => hadmits call (List.mem_append_right _ hcall))
        hbefore

/-- An invariant that holds while nothing is in flight holds throughout every run from there. -/
theorem Run.invariant {world : World} (hpreserves : Preserves c admits inv)
    (hrun : Run c ⟨world, []⟩ calls s) (hadmits : ∀ call ∈ calls, admits call)
    (h : inv world []) : inv s.world (ownCalls s.stack) :=
  (hrun.nested hpreserves hadmits h).now

/-- The invariant held when the innermost call began. -/
theorem Run.invariant_entry {world world' : World} {call : InFlight World Frame}
    {stack : List (Activation World Frame)} (hpreserves : Preserves c admits inv)
    (hrun : Run c ⟨world, []⟩ calls ⟨world', .own call :: stack⟩)
    (hadmits : ∀ call ∈ calls, admits call) (h : inv world []) :
    inv call.entry (ownCalls stack) :=
  (hrun.nested hpreserves hadmits h).2.now

/-! ## What a call adds to a log -/

/-- A log has grown since a call began, and the call has added these entries, among others. -/
def AddedSince {Entry : Type} (entry now own : List Entry) : Prop :=
  ∃ later, now = entry ++ later ∧ own.Sublist later

/-- A call that begins has added nothing. -/
theorem AddedSince.refl {Entry : Type} (log : List Entry) : AddedSince log log [] :=
  ⟨[], by simp, List.Sublist.refl []⟩

/-- Others may add entries. -/
theorem AddedSince.mono {Entry : Type} {entry now now' own : List Entry}
    (h : AddedSince entry now own) (hgrows : now <+: now') : AddedSince entry now' own := by
  obtain ⟨later, rfl, hsub⟩ := h
  obtain ⟨more, rfl⟩ := hgrows
  exact ⟨later ++ more, by rw [List.append_assoc], hsub.trans (List.sublist_append_left _ _)⟩

/-- The call adds an entry. -/
theorem AddedSince.add {Entry : Type} {entry now own : List Entry} (h : AddedSince entry now own)
    (x : Entry) : AddedSince entry (now ++ [x]) (own ++ [x]) := by
  obtain ⟨later, rfl, hsub⟩ := h
  exact ⟨later ++ [x], by rw [List.append_assoc], hsub.append (List.Sublist.refl [x])⟩

/-! ## What a call establishes at its beginning -/

/-- Every call in flight but the innermost waits. A fresh call, which has not advanced, finds the
world as it was when the call began, and another one has established a property of that world. -/
structure Established (c : Contract World Call Frame) (fresh : Frame → Prop)
    (property : World → Frame → Prop) (world : World) (calls : List (InFlight World Frame)) :
    Prop where
  waits : ∀ call ∈ calls.tail, c.waits call.frame = true
  world_eq : ∀ call ∈ calls, fresh call.frame → world = call.entry
  property : ∀ call ∈ calls, fresh call.frame ∨ property call.entry call.frame

/-- When other code has control, every call in flight waits. -/
theorem Established.forall_waits {fresh : Frame → Prop} {property : World → Frame → Prop}
    {world : World} {calls : List (InFlight World Frame)}
    (h : Established c fresh property world calls) (hyields : c.Yields calls) :
    ∀ call ∈ calls, c.waits call.frame = true := by
  cases calls with
  | nil => simp
  | cons head tail => exact List.forall_mem_cons.mpr ⟨hyields head rfl, h.waits⟩

/-- A property that the first stretch of a call establishes, and that later stretches keep. -/
theorem preserves_established {fresh : Frame → Prop} {property : World → Frame → Prop}
    (hstart : ∀ call, fresh (c.start call)) (hwaits : ∀ frame, fresh frame → c.waits frame = false)
    (hfirst : ∀ world frame world' frame', fresh frame →
      c.advance world frame = some (world', frame') → property world frame')
    (hlater : ∀ entry world frame world' frame', ¬fresh frame → property entry frame →
      c.advance world frame = some (world', frame') → property entry frame')
    (hadvanced : ∀ world frame world' frame',
      c.advance world frame = some (world', frame') → ¬fresh frame') :
    Preserves c admits (Established c fresh property) where
  enter {world calls call} h hyields _ := by
    refine ⟨h.forall_waits hyields, ?_, ?_⟩
    · exact List.forall_mem_cons.mpr ⟨fun _ => rfl, h.world_eq⟩
    · exact List.forall_mem_cons.mpr ⟨.inl (hstart call), h.property⟩
  advance {world world' entry frame frame' calls} h hstep := by
    have hnew := hadvanced _ _ _ _ hstep
    refine ⟨h.waits, ?_, ?_⟩
    -- the other calls wait, and a fresh call does not
    · refine List.forall_mem_cons.mpr
        ⟨fun hfresh => absurd hfresh hnew, fun call hcall hfresh => ?_⟩
      have hwait := h.waits call hcall
      rw [hwaits _ hfresh] at hwait
      cases hwait
    · obtain ⟨hhead, htail⟩ := List.forall_mem_cons.mp h.property
      refine List.forall_mem_cons.mpr ⟨.inr ?_, htail⟩
      by_cases hfresh : fresh frame
      · have hworld := h.world_eq _ List.mem_cons_self hfresh
        simp only at hworld
        -- the first stretch of the call runs on the world that the call found
        rw [← hworld]
        exact hfirst _ _ _ _ hfresh hstep
      · exact hlater _ _ _ _ _ hfresh (hhead.resolve_left hfresh) hstep
  ret h _ :=
    ⟨fun call hcall => h.waits call (List.mem_of_mem_tail hcall),
      fun call hcall => h.world_eq call (List.mem_cons_of_mem _ hcall),
      fun call hcall => h.property call (List.mem_cons_of_mem _ hcall)⟩
  outside h hyields _ := by
    refine ⟨h.waits, fun call hcall hfresh => ?_, h.property⟩
    have hwait := h.forall_waits hyields call hcall
    rw [hwaits _ hfresh] at hwait
    cases hwait

end CallStack
