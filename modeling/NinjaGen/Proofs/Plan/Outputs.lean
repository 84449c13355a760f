import NinjaGen.Plan
import Mathlib.Data.List.Pairwise
import Mathlib.Data.List.Perm.Basic

/-!
# The outputs of a plan

A plan is the expansions of its targets, in their order, and no two of its steps produce the same
file. There is a plan whenever that can be had; otherwise the first target at fault decides.

* `DistinctOutputs` says that no two steps produce the same file, however its path is spelled.
* `expandTarget` fails with errors that name no target yet (`isBare_of_expandTarget`).
* `Fault ctx earlier k e`: after the steps `earlier`, planning stops at the target `k` with `e`.
* `ofTargets_eq_ok_iff` and `ofTargets_eq_error_iff` say when there is a plan and what the error is;
  the order of the targets does not decide whether there is one (`exists_plan_of_perm`).
-/

namespace NinjaGen

/-! ## Errors of an expansion -/

/-- Whether an error names no target around it. -/
def GenerationError.isBare : GenerationError → Bool
  | withinTarget _ _ => false
  | _ => true

theorem isBare_of_expand {b : Bindings} {template : String} {e : GenerationError}
    (h : Template.expand b template = .error e) : e.isBare = true := by
  unfold Template.expand at h
  split at h
  · cases h
  · cases h
    rfl

theorem isBare_of_expandAll {b : Bindings} {templates : List String} {e : GenerationError}
    (h : Template.expandAll b templates = .error e) : e.isBare = true := by
  obtain ⟨_, _, _, -, -, hx⟩ := mapM_eq_error_iff.1 h
  exact isBare_of_expand hx

theorem isBare_of_compiler {t : ToolchainProfile} {l : Language} {e : GenerationError}
    (h : t.compiler l = .error e) : e.isBare = true := by
  unfold ToolchainProfile.compiler at h
  split at h
  · split at h
    · cases h
      rfl
    · cases h
  · cases h
    rfl

namespace Expansion

variable {ctx : BuildContext} {e : GenerationError}

theorem isBare_of_source {template : String} (h : source ctx template = .error e) :
    e.isBare = true := by
  rw [source, bind_eq_error_iff] at h
  rcases h with h | ⟨path, -, h⟩
  · exact isBare_of_expand h
  · split at h
    · cases h
      rfl
    · rw [bind_eq_error_iff] at h
      rcases h with h | ⟨_, -, h⟩
      · exact isBare_of_compiler h
      · cases h

theorem isBare_of_sourcesFrom {target : String} {templates : List String} :
    ∀ {seen : List (List Component)}, sourcesFrom ctx target seen templates = .error e →
      e.isBare = true := by
  induction templates with
  | nil => exact nofun
  | cons t r ih =>
    intro seen h
    rw [sourcesFrom, bind_eq_error_iff] at h
    rcases h with h | ⟨s, -, h⟩
    · exact isBare_of_source h
    · dsimp only at h
      split at h
      · cases h
        rfl
      · rw [bind_eq_error_iff] at h
        rcases h with h | ⟨_, -, h⟩
        · exact ih h
        · cases h

theorem isBare_of_sources {target : Target} (h : sources ctx target = .error e) :
    e.isBare = true := by
  unfold sources at h
  split at h
  · cases h
    rfl
  · exact isBare_of_sourcesFrom h

theorem isBare_of_compileSettings {target : Target} (h : compileSettings ctx target = .error e) :
    e.isBare = true := by
  simp only [compileSettings, bind_eq_error_iff] at h
  rcases h with h | ⟨_, -, h | ⟨_, -, h | ⟨_, -, h | ⟨_, -, h⟩⟩⟩⟩
  · exact isBare_of_expandAll h
  · exact isBare_of_expandAll h
  · exact isBare_of_expandAll h
  · exact isBare_of_expandAll h
  · cases h

theorem isBare_of_linkStep {target : Target} {output : Path} {objects : List Path}
    {mode : LinkMode} (h : linkStep ctx target output objects mode = .error e) :
    e.isBare = true := by
  simp only [linkStep, bind_eq_error_iff] at h
  rcases h with h | ⟨_, -, h | ⟨_, -, h | ⟨_, -, h⟩⟩⟩
  · exact isBare_of_expandAll h
  · exact isBare_of_expandAll h
  · exact isBare_of_expandAll h
  · cases h

theorem isBare_of_finalStep {target : Target} {output : Path} {objects : List Path}
    (h : finalStep ctx target output objects = .error e) : e.isBare = true := by
  unfold finalStep at h
  split at h
  · cases h
  · exact isBare_of_linkStep (map_eq_error_iff.1 h)
  · exact isBare_of_linkStep (map_eq_error_iff.1 h)

end Expansion

/-- **The errors of an expansion name no target.** -/
theorem isBare_of_expandTarget {ctx : BuildContext} {target : Target} {e : GenerationError}
    (h : expandTarget ctx target = .error e) : e.isBare = true := by
  simp only [expandTarget, bind_eq_error_iff] at h
  rcases h with h | ⟨_, -, h | ⟨_, -, h | ⟨_, -, h | ⟨_, -, h⟩⟩⟩⟩
  · exact isBare_of_expand h
  · exact Expansion.isBare_of_sources h
  · exact Expansion.isBare_of_compileSettings h
  · exact Expansion.isBare_of_finalStep h
  · cases h

namespace BuildPlan

/-! ## Claims -/

/-- Whether no two of the steps produce the same file. -/
def DistinctOutputs (steps : List Step) : Prop :=
  steps.Pairwise fun s t => s.output.same t.output = false

/-- The claims of steps, latest first. -/
def claimsOf (steps : List Step) : List Claim := (steps.map Claim.ofStep).reverse

theorem claimsOf_append_singleton (steps : List Step) (s : Step) :
    claimsOf (steps ++ [s]) = .ofStep s :: claimsOf steps := by
  simp [claimsOf]

theorem distinctOutputs_append_singleton {steps : List Step} {s : Step} :
    DistinctOutputs (steps ++ [s]) ↔
      DistinctOutputs steps ∧ ∀ t ∈ steps, t.output.same s.output = false := by
  simp [DistinctOutputs, List.pairwise_append]

/-- The claim that a step repeats is that of a step before it. -/
theorem find?_claimsOf_eq_some {earlier : List Step} {s : Step} {c : Claim}
    (h : (claimsOf earlier).find? (·.output = (Claim.ofStep s).output) = some c) :
    ∃ first ∈ earlier, first.output.same s.output = true ∧ c.wording = first.wording := by
  obtain ⟨first, hfirst, rfl⟩ := List.mem_map.1 (List.mem_reverse.1 (List.mem_of_find?_eq_some h))
  have hc := List.find?_some h
  exact ⟨first, hfirst, Path.same_iff.2 (of_decide_eq_true hc), rfl⟩

theorem find?_claimsOf_eq_none_iff {earlier : List Step} {s : Step} :
    (claimsOf earlier).find? (·.output = (Claim.ofStep s).output) = none ↔
      ∀ t ∈ earlier, t.output.same s.output = false := by
  simp only [claimsOf, List.find?_eq_none, List.mem_reverse, List.forall_mem_map]
  refine forall₂_congr fun t _ => ?_
  rw [decide_eq_true_eq, Path.same, decide_eq_false_iff_not]
  rfl

/-! ### Items with one output -/

section Same

variable {α : Type} {output : α → Path}

theorem same_eq_false_symm {x y : α} (h : (output x).same (output y) = false) :
    (output y).same (output x) = false := by
  simpa [Path.same, eq_comm] using h

instance : Std.Symm fun x y : α => (output x).same (output y) = false where
  symm _ _ := same_eq_false_symm

/-- Two items that produce the same file, among items no two of which do, are one. -/
theorem eq_of_same {xs : List α} (hd : xs.Pairwise fun x y => (output x).same (output y) = false)
    {x y : α} (hx : x ∈ xs) (hy : y ∈ xs)
    (h : (output x).components = (output y).components) : x = y := by
  by_contra hne
  have := hd.forall hx hy hne
  simp [Path.same, h] at this

end Same

/-! ### Claims in a row -/

theorem find?_claimsOf_of_same {earlier : List Step} {first s : Step} (hd : DistinctOutputs earlier)
    (hfirst : first ∈ earlier) (h : first.output.same s.output = true) :
    ∃ c, (claimsOf earlier).find? (·.output = (Claim.ofStep s).output) = some c ∧
      c.wording = first.wording := by
  cases hf : (claimsOf earlier).find? (·.output = (Claim.ofStep s).output) with
  | none =>
    have := find?_claimsOf_eq_none_iff.1 hf first hfirst
    rw [this] at h
    cases h
  | some c =>
    obtain ⟨t, ht, hsame, hword⟩ := find?_claimsOf_eq_some hf
    have : t = first := eq_of_same hd ht hfirst
      ((Path.same_iff.1 hsame).trans (Path.same_iff.1 h).symm)
    exact ⟨c, rfl, this ▸ hword⟩

/-- Steps can claim their outputs after others exactly when none of them is claimed twice. -/
theorem claim_eq_ok_iff {earlier steps : List Step} {made : List Claim}
    (he : DistinctOutputs earlier) :
    claim (claimsOf earlier) steps = .ok made ↔
      DistinctOutputs (earlier ++ steps) ∧ made = claimsOf (earlier ++ steps) := by
  induction steps generalizing earlier with
  | nil => simp [claim, he, eq_comm]
  | cons s r ih =>
    rw [claim]
    cases hf : (claimsOf earlier).find? (·.output = (Claim.ofStep s).output) with
    | some c =>
      obtain ⟨first, hfirst, hsame, -⟩ := find?_claimsOf_eq_some hf
      simp only [reduceCtorEq, false_iff, not_and]
      intro hd
      have := (List.pairwise_append.1 hd).2.2 first hfirst s (by simp)
      simp [this] at hsame
    | none =>
      have hnew := distinctOutputs_append_singleton.2 ⟨he, find?_claimsOf_eq_none_iff.1 hf⟩
      dsimp only
      rw [← claimsOf_append_singleton, ih hnew, List.append_assoc, List.singleton_append]

theorem claim_append {earlier before : List Step} (hd : DistinctOutputs (earlier ++ before))
    (rest : List Step) :
    claim (claimsOf earlier) (before ++ rest) = claim (claimsOf (earlier ++ before)) rest := by
  induction before generalizing earlier with
  | nil => simp
  | cons s r ih =>
    have hd' : DistinctOutputs (earlier ++ [s] ++ r) := by simpa using hd
    have hs := (distinctOutputs_append_singleton.1 (List.pairwise_append.1 hd').1).2
    rw [List.cons_append, claim, find?_claimsOf_eq_none_iff.2 hs]
    dsimp only
    rw [← claimsOf_append_singleton, ih hd', List.append_assoc, List.singleton_append]

/-- Otherwise the first step decides whose output a step before it has. -/
theorem claim_eq_error_iff {earlier steps : List Step} {e : GenerationError}
    (he : DistinctOutputs earlier) :
    claim (claimsOf earlier) steps = .error e ↔
      ∃ before s after first, steps = before ++ s :: after ∧ DistinctOutputs (earlier ++ before) ∧
        first ∈ earlier ++ before ∧ first.output.same s.output = true ∧
        e = .duplicateOutput s.output.text first.wording s.wording := by
  constructor
  · intro h
    induction steps generalizing earlier with
    | nil => cases h
    | cons s r ih =>
      rw [claim] at h
      cases hf : (claimsOf earlier).find? (·.output = (Claim.ofStep s).output) with
      | some c =>
        obtain ⟨first, hfirst, hsame, hword⟩ := find?_claimsOf_eq_some hf
        rw [hf] at h
        simp only [Except.error.injEq, hword] at h
        exact ⟨[], s, r, first, rfl, by simpa using he, by simpa using hfirst, hsame, h.symm⟩
      | none =>
        have hnew := distinctOutputs_append_singleton.2 ⟨he, find?_claimsOf_eq_none_iff.1 hf⟩
        rw [hf] at h
        dsimp only at h
        rw [← claimsOf_append_singleton] at h
        obtain ⟨before, t, after, first, rfl, hd, hfirst, hsame, rfl⟩ := ih hnew h
        exact ⟨s :: before, t, after, first, rfl, by simpa using hd, by simpa using hfirst, hsame,
          rfl⟩
  · rintro ⟨before, s, after, first, rfl, hd, hfirst, hsame, rfl⟩
    obtain ⟨c, hc, hword⟩ := find?_claimsOf_of_same hd hfirst hsame
    rw [claim_append hd, claim, hc]
    simp only [hword]
    rfl

/-! ## Planning -/

/-- What is wrong with a target that is planned after the steps `earlier`, as an error. -/
inductive Fault (ctx : BuildContext) (earlier : List Step) (k : Target) : GenerationError → Prop
  /-- The target cannot be expanded. Its name is put around the error, which names none. -/
  | expansion {e : GenerationError} (h : expandTarget ctx k = .error e) (hbare : e.isBare = true)
      (hother : ∀ path first second, e ≠ .duplicateOutput path first second) :
      Fault ctx earlier k (.withinTarget k.name e)
  /-- Two sources of the target have one object. The error stays as it is. -/
  | object {path first second : String}
      (h : expandTarget ctx k = .error (.duplicateOutput path first second)) :
      Fault ctx earlier k (.duplicateOutput path first second)
  /-- The step `s` of the target is the first to produce a file that a step before it produces. -/
  | output {planned : PlannedTarget} {before after : List Step} {s first : Step}
      (h : expandTarget ctx k = .ok planned) (hsteps : planned.steps = before ++ s :: after)
      (hd : DistinctOutputs (earlier ++ before)) (hfirst : first ∈ earlier ++ before)
      (hsame : first.output.same s.output = true) :
      Fault ctx earlier k (.duplicateOutput s.output.text first.wording s.wording)

/-- A target that cannot be expanded is at fault, by its error with its name around it. -/
theorem fault_iff_of_error {ctx : BuildContext} {earlier : List Step} {k : Target}
    {c e : GenerationError} (h : expandTarget ctx k = .error c) :
    Fault ctx earlier k e ↔ e = c.inTarget k.name := by
  have hbare := isBare_of_expandTarget h
  constructor
  · rintro (⟨hc, -, hother⟩ | hc | hc)
    · cases h.symm.trans hc
      cases c with
      | withinTarget => cases hbare
      | duplicateOutput path first second => exact absurd rfl (hother path first second)
      | _ => rfl
    · cases h.symm.trans hc
      rfl
    · cases h.symm.trans hc
  · rintro rfl
    cases c with
    | withinTarget => cases hbare
    | duplicateOutput => exact .object h
    | _ => exact .expansion h hbare nofun

/-- A target that can be expanded is at fault if its steps cannot claim their outputs. -/
theorem fault_iff_of_ok {ctx : BuildContext} {earlier : List Step} {k : Target}
    {planned : PlannedTarget} {e : GenerationError} (he : DistinctOutputs earlier)
    (h : expandTarget ctx k = .ok planned) :
    Fault ctx earlier k e ↔ claim (claimsOf earlier) planned.steps = .error e := by
  rw [claim_eq_error_iff he]
  constructor
  · rintro (⟨hc, -⟩ | hc | ⟨hc, hsteps, hd, hfirst, hsame⟩)
    · cases h.symm.trans hc
    · cases h.symm.trans hc
    · cases h.symm.trans hc
      exact ⟨_, _, _, _, hsteps, hd, hfirst, hsame, rfl⟩
  · rintro ⟨before, s, after, first, hsteps, hd, hfirst, hsame, rfl⟩
    exact .output h hsteps hd hfirst hsame

theorem expandAll_eq_ok_iff {ctx : BuildContext} {targets : List Target}
    {planned : List PlannedTarget} {earlier : List Step} (he : DistinctOutputs earlier) :
    expandAll ctx (claimsOf earlier) targets = .ok planned ↔
      targets.map (expandTarget ctx) = planned.map .ok ∧
        DistinctOutputs (earlier ++ planned.flatMap (·.steps)) := by
  induction targets generalizing earlier planned with
  | nil => cases planned <;> simp [expandAll, he]
  | cons t r ih =>
    rw [expandAll]
    cases ht : expandTarget ctx t with
    | error c => cases planned <;> simp [ht]
    | ok p =>
      simp only [bind_eq_ok_iff, claim_eq_ok_iff he, List.map_cons, ht]
      constructor
      · rintro ⟨_, ⟨hd, rfl⟩, rest, hrest, hp⟩
        cases hp
        obtain ⟨hmap, hall⟩ := (ih hd).1 hrest
        exact ⟨by rw [hmap]; rfl, by simpa using hall⟩
      · rintro ⟨hmap, hall⟩
        cases planned with
        | nil => cases hmap
        | cons q rest =>
          simp only [List.map_cons, List.cons.injEq, Except.ok.injEq] at hmap
          obtain ⟨rfl, hmap⟩ := hmap
          rw [List.flatMap_cons, ← List.append_assoc] at hall
          have hd : DistinctOutputs (earlier ++ p.steps) := (List.pairwise_append.1 hall).1
          exact ⟨_, ⟨hd, rfl⟩, rest, (ih hd).2 ⟨hmap, hall⟩, rfl⟩

theorem expandAll_eq_error_iff {ctx : BuildContext} {targets : List Target} {e : GenerationError}
    {earlier : List Step} (he : DistinctOutputs earlier) :
    expandAll ctx (claimsOf earlier) targets = .error e ↔
      ∃ before k after planned, targets = before ++ k :: after ∧
        expandAll ctx (claimsOf earlier) before = .ok planned ∧
        Fault ctx (earlier ++ planned.flatMap (·.steps)) k e := by
  induction targets generalizing earlier with
  | nil => simp [expandAll]
  | cons t r ih =>
    simp only [List.cons_eq_append_iff]
    constructor
    · intro h
      rw [expandAll] at h
      cases ht : expandTarget ctx t with
      | error c =>
        rw [ht] at h
        cases h
        exact ⟨[], t, r, [], .inl ⟨rfl, rfl⟩, rfl, (fault_iff_of_error ht).2 rfl⟩
      | ok p =>
        simp only [ht, bind_eq_error_iff, claim_eq_ok_iff he] at h
        rcases h with h | ⟨_, ⟨hd, rfl⟩, h | ⟨_, -, h⟩⟩
        · exact ⟨[], t, r, [], .inl ⟨rfl, rfl⟩, rfl, by simpa using (fault_iff_of_ok he ht).2 h⟩
        · obtain ⟨before, k, after, planned, rfl, hplanned, hfault⟩ := (ih hd).1 h
          refine ⟨t :: before, k, after, p :: planned, .inr ⟨before, rfl, rfl⟩, ?_,
            by simpa using hfault⟩
          obtain ⟨hmap, hall⟩ := (expandAll_eq_ok_iff hd).1 hplanned
          rw [expandAll_eq_ok_iff he]
          exact ⟨by simp [ht, hmap], by simpa using hall⟩
        · cases h
    · rintro ⟨before, k, after, planned, ⟨rfl, heq⟩ | ⟨before, rfl, rfl⟩, hplanned, hfault⟩
      · obtain ⟨rfl, rfl⟩ := List.cons.inj heq
        cases hplanned
        rw [List.flatMap_nil, List.append_nil] at hfault
        rw [expandAll]
        cases ht : expandTarget ctx k with
        | error c => rw [(fault_iff_of_error ht).1 hfault]
        | ok p => simp [(fault_iff_of_ok he ht).1 hfault, bind, Except.bind]
      · obtain ⟨hmap, hall⟩ := (expandAll_eq_ok_iff he).1 hplanned
        cases planned with
        | nil => cases hmap
        | cons p rest =>
          obtain ⟨ht, hmap⟩ := List.cons.inj hmap
          rw [List.flatMap_cons, ← List.append_assoc] at hall hfault
          have hd : DistinctOutputs (earlier ++ p.steps) := (List.pairwise_append.1 hall).1
          have hrest := (ih hd).2
            ⟨before, k, after, rest, rfl, (expandAll_eq_ok_iff hd).2 ⟨hmap, hall⟩, hfault⟩
          rw [expandAll, ht]
          simp [(claim_eq_ok_iff he).2 ⟨hd, rfl⟩, hrest, bind, Except.bind]

/-- There is a plan exactly when every target can be expanded by itself and no two steps of all
expansions produce the same file; the plan holds the expansions in the order of the targets. -/
theorem ofTargets_eq_ok_iff {ctx : BuildContext} {targets : List Target} {plan : BuildPlan} :
    ofTargets ctx targets = .ok plan ↔
      targets.map (expandTarget ctx) = plan.targets.map .ok ∧ DistinctOutputs plan.steps := by
  have h := @expandAll_eq_ok_iff ctx targets plan.targets [] .nil
  rw [List.nil_append] at h
  rw [steps, ← h, ofTargets, bind_eq_ok_iff]
  constructor
  · rintro ⟨_, hplanned, hp⟩
    cases hp
    exact hplanned
  · exact fun hplanned => ⟨plan.targets, hplanned, rfl⟩

/-- Otherwise the first target at fault decides. -/
theorem ofTargets_eq_error_iff {ctx : BuildContext} {targets : List Target}
    {e : GenerationError} :
    ofTargets ctx targets = .error e ↔
      ∃ before k after plan, targets = before ++ k :: after ∧ ofTargets ctx before = .ok plan ∧
        Fault ctx plan.steps k e := by
  have h := @expandAll_eq_error_iff ctx targets e [] .nil
  rw [show claimsOf [] = [] from rfl] at h
  rw [ofTargets, bind_eq_error_iff, h]
  constructor
  · rintro (⟨before, k, after, planned, htargets, hplanned, hfault⟩ | ⟨_, -, h⟩)
    · exact ⟨before, k, after, ⟨planned⟩, htargets, by rw [ofTargets, hplanned]; rfl, hfault⟩
    · cases h
  · rintro ⟨before, k, after, plan, htargets, hplan, hfault⟩
    obtain ⟨planned, hplanned, hp⟩ := bind_eq_ok_iff.1 hplan
    cases hp
    exact .inl ⟨before, k, after, planned, htargets, hplanned, hfault⟩

/-! ## The order of the targets -/

/-- Targets in another order are expanded into the same expansions, in that order. -/
theorem exists_perm_of_expanded {ctx : BuildContext} {targets targets' : List Target}
    (hperm : targets.Perm targets') {planned : List PlannedTarget}
    (h : targets.map (expandTarget ctx) = planned.map .ok) :
    ∃ planned', planned.Perm planned' ∧
      targets'.map (expandTarget ctx) = planned'.map .ok := by
  induction hperm generalizing planned with
  | nil => exact ⟨planned, .refl _, h⟩
  | cons t _ ih =>
    cases planned with
    | nil => cases h
    | cons p planned =>
      obtain ⟨ht, h⟩ := List.cons.inj h
      obtain ⟨planned', hp, h'⟩ := ih h
      exact ⟨p :: planned', hp.cons p, by rw [List.map_cons, List.map_cons, ht, h']⟩
  | swap t u r =>
    rcases planned with _ | ⟨p, _ | ⟨q, planned⟩⟩
    · simp at h
    · simp at h
    · simp only [List.map_cons, List.cons.injEq] at h
      obtain ⟨hp, hq, h⟩ := h
      exact ⟨q :: p :: planned, .swap q p planned, by simp [hp, hq, h]⟩
  | trans _ _ ih₁ ih₂ =>
    obtain ⟨planned₁, hp₁, h₁⟩ := ih₁ h
    obtain ⟨planned₂, hp₂, h₂⟩ := ih₂ h₁
    exact ⟨planned₂, hp₁.trans hp₂, h₂⟩

/-- Distinct outputs stay distinct in another order. -/
theorem DistinctOutputs.perm {steps steps' : List Step} (h : DistinctOutputs steps)
    (hperm : steps.Perm steps') : DistinctOutputs steps' :=
  hperm.pairwise h same_eq_false_symm

theorem exists_plan_of_perm {ctx : BuildContext} {targets targets' : List Target}
    (hperm : targets.Perm targets') (h : ∃ plan, ofTargets ctx targets = .ok plan) :
    ∃ plan, ofTargets ctx targets' = .ok plan := by
  obtain ⟨plan, hplan⟩ := h
  obtain ⟨hmap, hd⟩ := ofTargets_eq_ok_iff.1 hplan
  obtain ⟨planned', hp, hmap'⟩ := exists_perm_of_expanded hperm hmap
  exact ⟨⟨planned'⟩, ofTargets_eq_ok_iff.2 ⟨hmap', hd.perm (hp.flatMap_right _)⟩⟩

/-- **Planning.** There is a plan exactly when every target can be expanded and all outputs are
different; this does not depend on the order of the targets; and if there is none, the error is that
of the first target at fault. -/
theorem ofTargets_spec (ctx : BuildContext) (targets : List Target) :
    (∀ plan, ofTargets ctx targets = .ok plan ↔
      targets.map (expandTarget ctx) = plan.targets.map .ok ∧ DistinctOutputs plan.steps) ∧
    (∀ targets', targets.Perm targets' →
      ((∃ plan, ofTargets ctx targets = .ok plan) ↔
        ∃ plan, ofTargets ctx targets' = .ok plan)) ∧
    ∀ e, ofTargets ctx targets = .error e ↔
      ∃ before k after plan, targets = before ++ k :: after ∧
        ofTargets ctx before = .ok plan ∧ Fault ctx plan.steps k e :=
  ⟨fun _ => ofTargets_eq_ok_iff,
    fun _ hperm => ⟨exists_plan_of_perm hperm, exists_plan_of_perm hperm.symm⟩,
    fun _ => ofTargets_eq_error_iff⟩

end BuildPlan

/-! ## A plan that cannot be had -/

/-- GCC without bindings and with the default options. -/
def BuildContext.usual : BuildContext := ⟨.ofPlatform .gcc, .ofList [], {}⟩

/-- An executable of one source. -/
def Target.executable (name output source : String) : Target :=
  .ofSettings name .exe output [source] {}

/-- Two targets that spell one artifact differently have no plan, in neither order. -/
theorem BuildPlan.not_exists_plan_of_respelled_output :
    let app := Target.executable "app" "bin/app" "a.c"
    let tool := Target.executable "tool" "bin//app" "b.c"
    [app, tool].Perm [tool, app] ∧ (∃ plan, ofTargets .usual [app] = .ok plan) ∧
      (¬ ∃ plan, ofTargets .usual [app, tool] = .ok plan) ∧
      ¬ ∃ plan, ofTargets .usual [tool, app] = .ok plan := by
  intro app tool
  have hperm : [app, tool].Perm [tool, app] := .swap tool app []
  have happ : ∃ plan, ofTargets .usual [app] = .ok plan := by
    rw [← isOk_iff]
    decide +kernel
  have hnone : ¬ ∃ plan, ofTargets .usual [app, tool] = .ok plan := by
    rw [← isOk_iff]
    decide +kernel
  exact ⟨hperm, happ, hnone,
    mt ((ofTargets_spec .usual [app, tool]).2.1 [tool, app] hperm).2 hnone⟩

end NinjaGen
