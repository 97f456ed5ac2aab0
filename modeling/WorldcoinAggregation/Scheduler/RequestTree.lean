import WorldcoinAggregation.Scheduler.TreeWalk

/-!
# The tree of a request

`RecursiveRequest.expand` lists all requests that come out of a request, dependencies first.
Whatever a request is, the requests below it are `Expandable` (`dependencies_spec`): their claims
are those of their intervals and none of their bounds overflows, so only the first split can fail.
Splitting loses and duplicates nothing (`SplitsInto`).
-/

namespace WorldcoinAggregation

open Fallible NodeParams

namespace RecursiveRequest

variable {req dep : RecursiveRequest} {deps nodes : List RecursiveRequest} {c : NodeParams}
  {fuel i : ℕ}

/-- All requests below a request and the request itself, each after its dependencies. -/
def expand : ℕ → RecursiveRequest → Fallible (List RecursiveRequest)
  | 0, _ => throw .outOfFuel
  | fuel + 1, req => do
      let deps ← req.dependencies
      let below ← deps.mapM (expand fuel)
      return below.flatten ++ [req]

/-- A request that splits all the way down to the leaves. -/
structure Expandable (req : RecursiveRequest) : Prop where
  wellFormed : req.WellFormed
  valid : req.params.Valid
  depth_lt : req.params.depth < 32
  partsEnd_lt : req.params.initialDepth < req.params.depth →
    req.partsEnd req.params.childDepth < 2 ^ 32

/-! ## Parts -/

/-- When a part is computed: its bounds fit into 32 bits and its claims are there. -/
theorem dependency_eq_ok_iff : req.dependency c i = .ok dep ↔
    (c.depth < 32 ∧ i + 2 ^ c.depth < 2 ^ 32 ∧ req.start ≤ i ∧
      req.start ≤ min req.end_ (i + 2 ^ c.depth) ∧
      i - req.start ≤ min req.end_ (i + 2 ^ c.depth) - req.start ∧
      min req.end_ (i + 2 ^ c.depth) - req.start ≤ req.claims.length) ∧ dep = req.part c i := by
  simp only [dependency, bind_eq_ok, pure_eq_ok, checkedShl_eq_ok, checkedAdd_eq_ok,
    checkedSub_eq_ok, slice_eq_ok]
  constructor
  · rintro ⟨_, ⟨hdepth, rfl⟩, _, ⟨hfits, rfl⟩, _, ⟨hi, rfl⟩, _, ⟨hend, rfl⟩, _,
      ⟨⟨hle, hclaims⟩, rfl⟩, rfl⟩
    exact ⟨⟨hdepth, hfits, hi, hend, hle, hclaims⟩, rfl⟩
  · rintro ⟨⟨hdepth, hfits, hi, hend, hle, hclaims⟩, rfl⟩
    exact ⟨_, ⟨hdepth, rfl⟩, _, ⟨hfits, rfl⟩, _, ⟨hi, rfl⟩, _, ⟨hend, rfl⟩, _,
      ⟨⟨hle, hclaims⟩, rfl⟩, rfl⟩

/-- The end of the last part of a part is not behind the end of the part, before it is cut off. -/
theorem partsEnd_part_le {childDepth : ℕ} (hle : childDepth ≤ c.depth) :
    (req.part c i).partsEnd childDepth ≤ i + 2 ^ c.depth := by
  have hcount : (req.part c i).end_ - (req.part c i).start ≤ 2 ^ c.depth := by
    have hpos := Nat.two_pow_pos c.depth
    simp only [part]
    omega
  have hpow := Nat.two_pow_pos childDepth
  have hfull : 2 ^ c.depth = 2 ^ (c.depth - childDepth) * 2 ^ childDepth := by
    rw [← pow_add, Nat.sub_add_cancel hle]
  rw [partsEnd]
  refine Nat.add_le_add_left ?_ i
  rw [hfull]
  refine Nat.mul_le_mul_right _ ?_
  rw [← Nat.lt_succ_iff, Nat.div_lt_iff_lt_mul hpow, Nat.succ_mul, ← hfull]
  omega

/-- The parts of any request split all the way down. -/
theorem expandable_part (hc : c.Valid) (hdepth : c.depth < 32) (hfits : i + 2 ^ c.depth < 2 ^ 32)
    (hi : i < req.end_) (hstart : req.start ≤ i)
    (hclaims : min req.end_ (i + 2 ^ c.depth) - req.start ≤ req.claims.length) :
    (req.part c i).Expandable := by
  have hpow := Nat.two_pow_pos c.depth
  have hlength : (req.part c i).claims.length = min req.end_ (i + 2 ^ c.depth) - i := by
    simp only [part, List.extract_eq_take_drop, List.length_take, List.length_drop]
    omega
  refine ⟨⟨?_, ?_, hlength, ?_⟩, hc, hdepth, fun hlt => ?_⟩
  · simp only [part]
    omega
  · simp only [part]
    omega
  · rw [hlength]
    simp only [part]
    omega
  · refine lt_of_le_of_lt (partsEnd_part_le ?_) hfits
    simp only [part, childDepth]
    split <;> omega

/-- When a request that is not empty splits, whatever claims it comes with. -/
theorem dependencies_eq_ok_iff (hlt : req.start < req.end_)
    (hdepth : req.params.depth ≠ req.params.initialDepth) (hchild : req.params.child = .ok (some c))
    (hle : c.depth ≤ req.params.depth) : req.dependencies = .ok deps ↔
      (req.params.depth < 32 ∧ req.end_ - req.start ≤ 2 ^ req.params.depth ∧
        req.end_ - req.start ≤ req.claims.length ∧ req.partsEnd c.depth < 2 ^ 32) ∧
      deps = (stepBy req.start req.end_ (2 ^ c.depth)).map (req.part c) := by
  have hpow := Nat.two_pow_pos c.depth
  obtain ⟨last, hlast, hend⟩ := exists_partsEnd c.depth hlt
  have hcover : req.end_ ≤ last + 2 ^ c.depth := by
    rw [hend, partsEnd]
    have := Nat.lt_div_mul_add (a := req.end_ - req.start + 2 ^ c.depth - 1) hpow
    omega
  have hbounds {i : ℕ} (hi : i ∈ stepBy req.start req.end_ (2 ^ c.depth)) :
      req.start ≤ i ∧ i < req.end_ := by
    obtain ⟨k, rfl, hend⟩ := (mem_stepBy hpow).mp hi
    exact ⟨Nat.le_add_right _ _, hend⟩
  have hparts : (stepBy req.start req.end_ (2 ^ c.depth)).mapM (req.dependency c) = .ok deps ↔
      (∀ i ∈ stepBy req.start req.end_ (2 ^ c.depth), _) ∧
        deps = (stepBy req.start req.end_ (2 ^ c.depth)).map (req.part c) :=
    mapM_eq_ok fun i _ _ => dependency_eq_ok_iff
  simp only [dependencies, bind_eq_ok, checkedShl_eq_ok, checkedSub_eq_ok, assert_eq_ok,
    if_neg hdepth, unwrap_eq_ok, hchild, Except.ok.injEq]
  constructor
  · rintro ⟨_, ⟨-, rfl⟩, _, ⟨h32, rfl⟩, _, hcount, _, rfl, _, hc, _, ⟨-, rfl⟩, hdeps⟩
    obtain rfl := Option.some.inj hc
    obtain ⟨hfits, rfl⟩ := hparts.mp hdeps
    obtain ⟨-, hfit, -, -, -, hclaims⟩ := hfits last hlast
    rw [Nat.min_eq_left hcover] at hclaims
    exact ⟨⟨h32, hcount, hclaims, hend ▸ hfit⟩, rfl⟩
  · rintro ⟨⟨h32, hcount, hclaims, hfits⟩, rfl⟩
    refine ⟨_, ⟨hlt.le, rfl⟩, _, ⟨h32, rfl⟩, (), hcount, _, rfl, c, rfl, _, ⟨by omega, rfl⟩,
      hparts.mpr ⟨fun i hi => ?_, rfl⟩⟩
    obtain ⟨hstart, hi_lt⟩ := hbounds hi
    have hpart := le_partsEnd hi
    exact ⟨by omega, by omega, by omega, by omega, by omega, by omega⟩

/-- A request with dependencies has one for each step, and each splits all the way down. -/
theorem dependencies_spec (h : req.dependencies = .ok deps) :
    req.start ≤ req.end_ ∧ req.params.depth < 32 ∧ req.end_ - req.start ≤ 2 ^ req.params.depth ∧
      (req.params.depth = req.params.initialDepth ∧ deps = [] ∨
        req.params.depth ≠ req.params.initialDepth ∧ ∃ c, req.params.child = .ok (some c) ∧
          deps = (stepBy req.start req.end_ (2 ^ c.depth)).map (req.part c) ∧
          ∀ dep ∈ deps, dep.Expandable) := by
  simp only [dependencies, bind_eq_ok, checkedShl_eq_ok, checkedSub_eq_ok, assert_eq_ok] at h
  obtain ⟨_, ⟨hle, rfl⟩, _, ⟨h32, rfl⟩, _, hcount, h⟩ := h
  refine ⟨hle, h32, hcount, ?_⟩
  split at h
  · rename_i hinitial
    exact .inl ⟨hinitial, pure_eq_ok.mp h⟩
  · rename_i hinitial
    simp only [bind_eq_ok, unwrap_eq_ok, checkedShl_eq_ok] at h
    obtain ⟨_, hchild, c, rfl, _, ⟨-, rfl⟩, hdeps⟩ := h
    refine .inr ⟨hinitial, c, hchild,
      eq_map_of_mapM hdeps fun i dep hdep => (dependency_eq_ok_iff.mp hdep).2, fun dep hmem => ?_⟩
    obtain ⟨i, hi, hdep⟩ := exists_of_mem_mapM hdeps hmem
    obtain ⟨k, rfl, hend⟩ := (mem_stepBy (Nat.two_pow_pos _)).mp hi
    obtain ⟨⟨hdepth, hfits, -, -, -, hclaims⟩, rfl⟩ := dependency_eq_ok_iff.mp hdep
    exact expandable_part (isChild_of_child hchild).valid hdepth hfits hend
      (Nat.le_add_right _ _) hclaims

/-- A child is computed unless the node is below the leaves. -/
theorem onlyPanics_child (p : NodeParams) : OnlyPanics p.child := by
  have hnew (nodeType : NodeType) (depth initialDepth : ℕ) :
      OnlyPanics (NodeParams.new nodeType depth initialDepth) :=
    (onlyPanics_ite _ ()).bind fun _ => onlyPanics_ok _
  have hjoin (p : NodeParams) : OnlyPanics (do
      assert (p.initialDepth < p.depth)
      if p.depth = p.initialDepth + 1 then
        return some (← NodeParams.new .leaf p.initialDepth p.initialDepth)
      else
        return some (← NodeParams.new .intermediate (p.depth - 1) p.initialDepth)) := by
    refine (onlyPanics_ite _ ()).bind fun _ => ?_
    split
    · exact (hnew _ _ _).bind fun _ => onlyPanics_ok _
    · exact (hnew _ _ _).bind fun _ => onlyPanics_ok _
  unfold NodeParams.child
  split
  · exact onlyPanics_ok _
  · exact hjoin p
  · exact hjoin p
  · exact (hnew _ _ _).bind fun _ => onlyPanics_ok _
  · exact (hnew _ _ _).bind fun _ => onlyPanics_ok _

/-- A request splits unless it panics. -/
theorem onlyPanics_dependencies (req : RecursiveRequest) : OnlyPanics req.dependencies := by
  have hdependency (c : NodeParams) (i : ℕ) : OnlyPanics (req.dependency c i) :=
    (onlyPanics_ite _ _).bind fun _ => (onlyPanics_ite _ _).bind fun _ =>
      (onlyPanics_ite _ _).bind fun _ => (onlyPanics_ite _ _).bind fun _ =>
        (onlyPanics_ite _ _).bind fun _ => onlyPanics_ok _
  refine (onlyPanics_ite _ _).bind fun _ => (onlyPanics_ite _ _).bind fun _ =>
    (onlyPanics_ite _ _).bind fun _ => ?_
  split
  · exact onlyPanics_ok _
  · exact (onlyPanics_child _).bind fun _ => (onlyPanics_unwrap _).bind fun _ =>
      (onlyPanics_ite _ _).bind fun _ => .mapM (hdependency _) _

/-! ## Splitting -/

/-- A request that splits without loss or duplication into requests for the nodes below it. -/
structure SplitsInto (req : RecursiveRequest) (deps : List RecursiveRequest) : Prop where
  nonempty : ∀ dep ∈ deps, dep.start < dep.end_
  first : deps.head?.map start = some req.start
  contiguous : deps.IsChain fun dep next => dep.end_ = next.start
  last : deps.getLast?.map end_ = some req.end_
  full : ∀ dep ∈ deps.dropLast, dep.claims.length = 2 ^ dep.params.depth
  claims : ∀ dep ∈ deps, dep.claims.length = dep.end_ - dep.start ∧
    dep.claims = req.claims.extract (dep.start - req.start) (dep.end_ - req.start)
  accepted : ∀ dep ∈ deps, new dep.start dep.end_ dep.root dep.claims dep.params = .ok dep
  child : ∀ dep ∈ deps, req.params.child = .ok (some dep.params)
  length_evm : ∀ round, req.params.nodeType = .evm round → deps.length = 1
  length_join : req.params.nodeType = .intermediate ∨ req.params.nodeType = .root →
    deps.length = if 2 ^ (req.params.depth - 1) < req.claims.length then 2 else 1

/-- A request in good order passes the checks of the constructor. -/
theorem Expandable.accepted (h : req.Expandable) :
    new req.start req.end_ req.root req.claims req.params = .ok req := by
  have hlt := h.wellFormed.start_lt
  have hlength := h.wellFormed.length_claims
  have hle := h.wellFormed.length_le
  have hsub : checkedSub req.end_ req.start = .ok (req.end_ - req.start) :=
    checkedSub_eq_ok.mpr ⟨hlt.le, rfl⟩
  have hshl : checkedShl 32 req.params.depth = .ok (2 ^ req.params.depth) :=
    checkedShl_eq_ok.mpr ⟨h.depth_lt, rfl⟩
  have hcount : ¬ 2 ^ req.params.depth < req.end_ - req.start := by omega
  have hdepth : ¬ req.params.depth < req.params.initialDepth := by
    have := h.valid.le
    omega
  simp only [new, if_neg (not_le.mpr hlt), hsub, hshl, bind, Except.bind, if_neg hcount,
    if_neg hdepth]
  rfl

/-- At the initial depth a request has no dependencies. -/
theorem Expandable.dependencies_initial (h : req.Expandable)
    (hinitial : req.params.depth = req.params.initialDepth) : req.dependencies = .ok [] :=
  (RecursiveRequest.dependencies_initial h.wellFormed hinitial).mpr ⟨h.depth_lt, rfl⟩

/-- A request for no more claims than one child holds has one dependency. -/
theorem Expandable.splitsInto_one (h : req.Expandable) (hc : IsChild req.params c)
    (hchild : req.params.child = .ok (some c)) (hle : req.end_ - req.start ≤ 2 ^ c.depth)
    (hdep : (req.part c req.start).Expandable) : req.SplitsInto [req.part c req.start] := by
  have hlt := h.wellFormed.start_lt
  have hend : (req.part c req.start).end_ = req.end_ := by
    simp only [part]
    omega
  have hlength := h.wellFormed.length_claims
  refine ⟨?_, rfl, .singleton _, congrArg some hend, by simp, ?_, ?_, ?_, fun _ _ => rfl,
    fun htype => ?_⟩
  · simpa using hdep.wellFormed.start_lt
  · simpa using ⟨hdep.wellFormed.length_claims, rfl⟩
  · simpa using hdep.accepted
  · simpa [part] using hchild
  · have hdepth : c.depth = req.params.depth - 1 := by
      rw [hc.depth_eq, childDepth]
      rcases htype with htype | htype <;> rw [htype]
    rw [if_neg (by rw [hlength, ← hdepth]; omega), List.length_singleton]

/-- A request for more claims than one child holds has two dependencies. -/
theorem Expandable.splitsInto_two (h : req.Expandable) (hc : IsChild req.params c)
    (hchild : req.params.child = .ok (some c)) (hlt : 2 ^ c.depth < req.end_ - req.start)
    (hfirst : (req.part c req.start).Expandable)
    (hsecond : (req.part c (req.start + 2 ^ c.depth)).Expandable) :
    req.SplitsInto [req.part c req.start, req.part c (req.start + 2 ^ c.depth)] := by
  have hlength := h.wellFormed.length_claims
  have hlengthFirst := hfirst.wellFormed.length_claims
  have hle := h.wellFormed.length_le
  have hstart := h.wellFormed.start_lt
  have hend : (req.part c req.start).end_ = req.start + 2 ^ c.depth := by
    simp only [part]
    omega
  have htwice : 2 ^ req.params.depth ≤ 2 * 2 ^ c.depth := by
    rw [← pow_succ']
    refine Nat.pow_le_pow_right (by omega) ?_
    rw [hc.depth_eq, childDepth]
    split <;> omega
  have hend' : (req.part c (req.start + 2 ^ c.depth)).end_ = req.end_ := by
    simp only [part]
    omega
  refine ⟨?_, rfl, .cons_cons hend (.singleton _), congrArg some hend', ?_, ?_, ?_, ?_,
    fun round htype => ?_, fun htype => ?_⟩
  · simpa using ⟨hfirst.wellFormed.start_lt, hsecond.wellFormed.start_lt⟩
  · simp only [List.dropLast_cons_cons, List.dropLast_singleton, List.mem_singleton, forall_eq,
      hlengthFirst, hend]
    exact Nat.add_sub_cancel_left _ _
  · simpa using ⟨⟨hlengthFirst, rfl⟩, hsecond.wellFormed.length_claims, rfl⟩
  · simpa using ⟨hfirst.accepted, hsecond.accepted⟩
  · simpa [part] using hchild
  · have hdepth : c.depth = req.params.depth := by rw [hc.depth_eq, childDepth, htype]
    rw [hdepth] at hlt
    omega
  · have hdepth : c.depth = req.params.depth - 1 := by
      rw [hc.depth_eq, childDepth]
      rcases htype with htype | htype <;> rw [htype]
    rw [if_pos (by rw [hlength, ← hdepth]; exact hlt), List.length_cons, List.length_singleton]

/-- Above the initial depth a request that splits all the way down has dependencies, and they do so
as well. -/
theorem Expandable.exists_dependencies (h : req.Expandable)
    (hdepth : req.params.depth ≠ req.params.initialDepth) :
    ∃ deps, req.dependencies = .ok deps ∧ req.SplitsInto deps ∧ ∀ dep ∈ deps, dep.Expandable := by
  have hlt : req.params.initialDepth < req.params.depth :=
    lt_of_le_of_ne h.valid.le (Ne.symm hdepth)
  have hleaf : req.params.nodeType ≠ .leaf := by
    intro hleaf
    have hvalid := h.valid
    rw [NodeParams.Valid, hleaf] at hvalid
    exact hdepth hvalid
  obtain ⟨c, hchild, -, hcdepth⟩ := NodeParams.exists_child h.valid hleaf
  have hc := isChild_of_child hchild
  have hcle : c.depth ≤ req.params.depth := by
    rw [hcdepth, childDepth]
    split <;> omega
  have hdeps := (dependencies_eq_ok h.wellFormed hdepth hchild hcle).mpr
    ⟨⟨h.depth_lt, hcdepth ▸ h.partsEnd_lt hlt⟩, rfl⟩
  obtain ⟨-, -, hcount, hcases⟩ := dependencies_spec hdeps
  obtain ⟨-, c', hchild', heq, hexpandable⟩ := hcases.resolve_left fun hinitial =>
    hdepth hinitial.1
  refine ⟨_, hdeps, ?_, hexpandable⟩
  have hstart := h.wellFormed.start_lt
  by_cases hone : req.end_ - req.start ≤ 2 ^ c.depth
  · rw [stepBy_one hstart hone, List.map_singleton] at hexpandable ⊢
    exact h.splitsInto_one hc hchild hone (hexpandable _ (by simp))
  · have htwo : req.end_ - req.start ≤ 2 * 2 ^ c.depth := by
      refine hcount.trans ?_
      rw [← pow_succ']
      refine Nat.pow_le_pow_right (by omega) ?_
      rw [hcdepth, childDepth]
      split <;> omega
    rw [stepBy_two (not_le.mp hone) htwo, List.map_cons, List.map_singleton] at hexpandable ⊢
    exact h.splitsInto_two hc hchild (not_le.mp hone) (hexpandable _ (by simp))
      (hexpandable _ (by simp))

/-- Two adjacent pieces of a list make one. -/
theorem extract_append_extract {α : Type} (xs : List α) {i j k : ℕ} (hij : i ≤ j) (hjk : j ≤ k) :
    xs.extract i j ++ xs.extract j k = xs.extract i k := by
  have hlength : k - i = j - i + (k - j) := by omega
  have hdrop : i + (j - i) = j := by omega
  simp only [List.extract_eq_take_drop, hlength, List.take_add, List.drop_drop, hdrop]

/-- Requests whose intervals follow each other, and whose claims are those of a list at their
indices, have the claims of the whole interval. -/
theorem flatMap_claims_of_isChain {xs : List ClaimNative} (offset : ℕ) (last : RecursiveRequest)
    (hlast : (dep :: deps).getLast? = some last)
    (hchain : (dep :: deps).IsChain fun dep next => dep.end_ = next.start)
    (hstart : offset ≤ dep.start) (hnonempty : ∀ d ∈ dep :: deps, d.start < d.end_)
    (hclaims : ∀ d ∈ dep :: deps,
      d.claims = xs.extract (d.start - offset) (d.end_ - offset)) :
    (dep :: deps).flatMap (fun d => d.claims) =
        xs.extract (dep.start - offset) (last.end_ - offset) ∧ dep.end_ ≤ last.end_ := by
  induction deps generalizing dep with
  | nil =>
      obtain rfl : dep = last := by simpa using hlast
      exact ⟨by simpa using hclaims dep (by simp), le_rfl⟩
  | cons next deps ih =>
      obtain ⟨hnext, hchain⟩ := List.isChain_cons_cons.mp hchain
      have hdep := hnonempty dep (by simp)
      have hnext_lt := hnonempty next (by simp)
      obtain ⟨hrest, hle⟩ := ih (by simpa using hlast) hchain (by omega)
        (fun d hd => hnonempty d (List.mem_cons_of_mem _ hd))
        (fun d hd => hclaims d (List.mem_cons_of_mem _ hd))
      refine ⟨?_, by omega⟩
      rw [List.flatMap_cons, hrest, hclaims dep (by simp), ← hnext]
      exact extract_append_extract xs (by omega) (by omega)

/-- The claims of the dependencies, from left to right, are those of the request. -/
theorem SplitsInto.flatMap_claims (h : req.SplitsInto deps) (hwf : req.WellFormed) :
    deps.flatMap (fun dep => dep.claims) = req.claims := by
  have hlength := hwf.length_claims
  obtain ⟨last, hlast, hend⟩ := Option.map_eq_some_iff.mp h.last
  cases deps with
  | nil => cases h.first
  | cons dep deps =>
      have hstart : dep.start = req.start := Option.some.inj h.first
      obtain ⟨hclaims, -⟩ := flatMap_claims_of_isChain req.start last hlast h.contiguous
        hstart.ge h.nonempty fun d hd => (h.claims d hd).2
      rw [hclaims, hstart, hend, Nat.sub_self, ← hlength, List.extract_eq_take_drop]
      simp

/-! ## The whole tree -/

/-- What a request expands to. -/
theorem expand_succ_eq_ok : expand (fuel + 1) req = .ok nodes ↔ ∃ deps below,
    req.dependencies = .ok deps ∧ deps.mapM (expand fuel) = .ok below ∧
      nodes = below.flatten ++ [req] := by
  simp only [expand, bind_eq_ok, pure_eq_ok]
  constructor
  · rintro ⟨deps, hdeps, below, hbelow, rfl⟩
    exact ⟨deps, below, hdeps, hbelow, rfl⟩
  · rintro ⟨deps, below, hdeps, hbelow, rfl⟩
    exact ⟨deps, hdeps, below, hbelow, rfl⟩

/-- A request that splits all the way down expands, with fuel for every generation below it. -/
theorem Expandable.exists_expand (h : req.Expandable) :
    ∃ nodes, ∀ fuel, req.params.height < fuel → expand fuel req = .ok nodes := by
  induction hheight : req.params.height using Nat.strong_induction_on generalizing req with
  | h height ih =>
      by_cases hinitial : req.params.depth = req.params.initialDepth
      · refine ⟨[req], fun fuel hfuel => ?_⟩
        obtain ⟨fuel, rfl⟩ := Nat.exists_eq_add_of_lt hfuel
        exact expand_succ_eq_ok.mpr ⟨[], [], h.dependencies_initial hinitial, rfl, rfl⟩
      · obtain ⟨deps, hdeps, hsplits, hexpandable⟩ := h.exists_dependencies hinitial
        have hlower (dep : RecursiveRequest) (hmem : dep ∈ deps) :
            dep.params.height + 1 = height := by
          rw [(isChild_of_child (hsplits.child dep hmem)).height_eq, hheight]
        have hbelow (dep : RecursiveRequest) : ∃ ns, dep ∈ deps → ∀ fuel,
            dep.params.height < fuel → expand fuel dep = .ok ns := by
          by_cases hmem : dep ∈ deps
          · have hlt : dep.params.height < height := by
              have := hlower dep hmem
              omega
            obtain ⟨ns, hns⟩ := ih _ hlt (hexpandable dep hmem) rfl
            exact ⟨ns, fun _ => hns⟩
          · exact ⟨[], fun hmem' => absurd hmem' hmem⟩
        choose below hbelow using hbelow
        refine ⟨(deps.map below).flatten ++ [req], fun fuel hfuel => ?_⟩
        obtain ⟨fuel, rfl⟩ := Nat.exists_eq_add_of_lt hfuel
        refine expand_succ_eq_ok.mpr ⟨deps, _, hdeps, mapM_of_forall fun dep hmem => ?_, rfl⟩
        have := hlower dep hmem
        exact hbelow dep hmem _ (by omega)

/-- What comes out of a dependency comes out of the request. -/
theorem Reaches.of_mem {node : RecursiveRequest} (hdeps : req.dependencies = .ok deps)
    (hmem : dep ∈ deps) (h : dep.Reaches node) : req.Reaches node := by
  induction h with
  | refl => exact .dep .refl hdeps hmem
  | dep _ hdeps' hmem' ih => exact .dep ih hdeps' hmem'

/-- A request is part of its tree. -/
theorem self_mem_expand (h : expand fuel req = .ok nodes) : req ∈ nodes := by
  cases fuel with
  | zero => cases h
  | succ fuel =>
      obtain ⟨deps, below, -, -, rfl⟩ := expand_succ_eq_ok.mp h
      exact List.mem_append_right _ (List.mem_singleton_self _)

/-- The list of a tree is closed under dependencies. -/
theorem dependencies_of_mem_expand {node : RecursiveRequest} (h : expand fuel req = .ok nodes)
    (hnode : node ∈ nodes) :
    ∃ deps, node.dependencies = .ok deps ∧ ∀ dep ∈ deps, dep ∈ nodes := by
  induction fuel generalizing req nodes with
  | zero => cases h
  | succ fuel ih =>
      obtain ⟨deps, below, hdeps, hbelow, rfl⟩ := expand_succ_eq_ok.mp h
      rw [List.mem_append, List.mem_singleton, List.mem_flatten] at hnode
      rcases hnode with ⟨ns, hns, hnode⟩ | rfl
      · obtain ⟨dep, -, hdep⟩ := exists_of_mem_mapM hbelow hns
        obtain ⟨deps', hdeps', hsub⟩ := ih hdep hnode
        exact ⟨deps', hdeps', fun d hd =>
          List.mem_append_left _ (List.mem_flatten.mpr ⟨ns, hns, hsub d hd⟩)⟩
      · refine ⟨deps, hdeps, fun dep hmem => List.mem_append_left _ ?_⟩
        obtain ⟨ns, hns, hdep⟩ := exists_mapM_of_mem hbelow hmem
        exact List.mem_flatten.mpr ⟨ns, hns, self_mem_expand hdep⟩

/-- The list of a tree holds what the scheduler makes on the way down. -/
theorem mem_expand_iff {node : RecursiveRequest} (h : expand fuel req = .ok nodes) :
    node ∈ nodes ↔ req.Reaches node := by
  constructor
  · intro hnode
    induction fuel generalizing req nodes with
    | zero => cases h
    | succ fuel ih =>
        obtain ⟨deps, below, hdeps, hbelow, rfl⟩ := expand_succ_eq_ok.mp h
        rw [List.mem_append, List.mem_singleton, List.mem_flatten] at hnode
        rcases hnode with ⟨ns, hns, hnode⟩ | rfl
        · obtain ⟨dep, hmem, hdep⟩ := exists_of_mem_mapM hbelow hns
          exact .of_mem hdeps hmem (ih hdep hnode)
        · exact .refl
  · intro hreach
    induction hreach with
    | refl => exact self_mem_expand h
    | dep _ hdeps hmem ih =>
        obtain ⟨deps', hdeps', hsub⟩ := dependencies_of_mem_expand h ih
        obtain rfl := Except.ok.inj (hdeps.symm.trans hdeps')
        exact hsub _ hmem

/-- Whatever a request is, everything below it splits all the way down. -/
theorem Reaches.eq_or_expandable {node : RecursiveRequest} (hreach : req.Reaches node) :
    node = req ∨ node.Expandable := by
  cases hreach with
  | refl => exact .inl rfl
  | dep _ hdeps hmem =>
      obtain ⟨-, -, -, ⟨-, rfl⟩ | ⟨-, _, -, -, hexpandable⟩⟩ := dependencies_spec hdeps
      · cases hmem
      · exact .inr (hexpandable _ hmem)

/-- Everything below a request that splits all the way down does so as well. -/
theorem Expandable.of_reaches {node : RecursiveRequest} (h : req.Expandable)
    (hreach : req.Reaches node) : node.Expandable := by
  rcases hreach.eq_or_expandable with rfl | hnode
  · exact h
  · exact hnode

/-- What comes out of what comes out of a request. -/
theorem Reaches.trans {node leaf : RecursiveRequest} (h : req.Reaches node)
    (h' : node.Reaches leaf) : req.Reaches leaf := by
  induction h' with
  | refl => exact h
  | dep _ hdeps hmem ih => exact .dep ih hdeps hmem

/-- A part of a request carries its root and claims of it. -/
theorem part_of_dependencies (hdeps : req.dependencies = .ok deps) (hmem : dep ∈ deps) :
    dep.root = req.root ∧ dep.claims ⊆ req.claims.take (req.end_ - req.start) := by
  obtain ⟨-, -, -, ⟨-, rfl⟩ | ⟨-, c, -, rfl, -⟩⟩ := dependencies_spec hdeps
  · cases hmem
  · obtain ⟨i, -, rfl⟩ := List.mem_map.mp hmem
    refine ⟨rfl, fun claim hclaim => ?_⟩
    have hle : min req.end_ (i + 2 ^ c.depth) - req.start ≤ req.end_ - req.start := by omega
    rw [part, List.extract_eq_take_drop, ← List.drop_take] at hclaim
    exact List.take_subset_take_left _ hle (List.mem_of_mem_drop hclaim)

/-- Everything below a request carries its root. -/
theorem Reaches.root_eq {node : RecursiveRequest} (h : req.Reaches node) :
    node.root = req.root := by
  induction h with
  | refl => rfl
  | dep _ hdeps hmem ih => exact (part_of_dependencies hdeps hmem).1.trans ih

/-- Everything below a request carries claims of its interval. -/
theorem Reaches.claims_subset {node : RecursiveRequest} (h : req.Reaches node) :
    node = req ∨ node.claims ⊆ req.claims.take (req.end_ - req.start) := by
  induction h with
  | refl => exact .inl rfl
  | dep _ hdeps hmem ih =>
      have hpart := (part_of_dependencies hdeps hmem).2
      rcases ih with rfl | hclaims
      · exact .inr hpart
      · exact .inr fun claim hclaim => hclaims (List.mem_of_mem_take (hpart hclaim))

/-- The requests at the initial depth hold the claims of the whole request, from left to right. -/
theorem Expandable.claims_leaves (h : req.Expandable) (hnodes : expand fuel req = .ok nodes) :
    (nodes.filter fun node => node.params.depth = node.params.initialDepth).flatMap
      (fun node => node.claims) = req.claims := by
  induction fuel generalizing req nodes with
  | zero => cases hnodes
  | succ fuel ih =>
      obtain ⟨deps, below, hdeps, hbelow, rfl⟩ := expand_succ_eq_ok.mp hnodes
      by_cases hinitial : req.params.depth = req.params.initialDepth
      · obtain rfl := Except.ok.inj ((h.dependencies_initial hinitial).symm.trans hdeps)
        obtain rfl : below = [] := pure_eq_ok.mp hbelow
        simp [hinitial]
      · obtain ⟨deps', hdeps', hsplits, hexpandable⟩ := h.exists_dependencies hinitial
        obtain rfl := Except.ok.inj (hdeps'.symm.trans hdeps)
        rw [← hsplits.flatMap_claims h.wellFormed]
        clear hsplits hdeps hdeps' hnodes
        simp only [List.filter_append, List.filter_cons, hinitial, decide_false, Bool.false_eq_true,
          if_false, List.filter_nil, List.append_nil]
        induction mapM_eq_ok_iff.mp hbelow with
        | nil => rfl
        | @cons dep ns deps below hdep htail ih' =>
            rw [List.flatten_cons, List.filter_append, List.flatMap_append, List.flatMap_cons,
              ih (hexpandable dep (by simp)) hdep,
              ih' (fun d hd => hexpandable d (List.mem_cons_of_mem _ hd))
                (mapM_eq_ok_iff.mpr htail)]

/-- Every claim of a request that splits all the way down gets to one of its leaves. -/
theorem Expandable.exists_leaf (h : req.Expandable) {claim : ClaimNative}
    (hclaim : claim ∈ req.claims) : ∃ leaf, req.Reaches leaf ∧
      leaf.params.depth = leaf.params.initialDepth ∧ claim ∈ leaf.claims := by
  obtain ⟨nodes, hnodes⟩ := h.exists_expand
  have hexpand := hnodes _ (Nat.lt_succ_self _)
  rw [← h.claims_leaves hexpand, List.mem_flatMap] at hclaim
  obtain ⟨leaf, hleaf, hmem⟩ := hclaim
  obtain ⟨hnode, hinitial⟩ := List.mem_filter.mp hleaf
  exact ⟨leaf, (mem_expand_iff hexpand).mp hnode, of_decide_eq_true hinitial, hmem⟩

end RecursiveRequest

end WorldcoinAggregation
