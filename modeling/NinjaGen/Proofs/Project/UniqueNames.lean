import Mathlib.Data.List.Nodup
import NinjaGen.Proofs.FileTree.Searching

/-!
# The names of discovered targets

Descriptors are read one after another, each of them whole, and the targets of one are declared
before the next one is read. A name can be declared once, be it in one descriptor or in several.

* `Descriptor.Yields`: a descriptor can be read, and each of its tables makes a target.
* `declarations` are names with the descriptor that declares them. They are declared one by one, as
  long as none of them is there already (`declare_eq_ok_iff`, `declare_eq_error_iff`).
* `Descriptor.Stops`: what is wrong with a descriptor after those that have been declared.
* `Finds`: the descriptors that a search finds are the files of their name to which it comes, in the
  order of their paths (`finds_iff_of_isDirectory`, by what `FileTree.filesNamed_spec` says of a
  search).
* `discoverTargets_in_order`: the targets of a project are those of its descriptors in the order of
  their paths, and otherwise the first descriptor decides with which something is wrong.
-/

namespace NinjaGen

variable {t : FileTree} {root buildRoot file : Path} {defaults : TargetSettings} {b : Bindings}
  {targets : List Target} {e : Failure}

/-! ## Notices on the way -/

namespace Logged

variable {α β : Type}

/-- With a failure nothing comes after. -/
theorem bind_of_error {x : Logged α} (h : x.outcome = .error e) (f : α → Logged β) :
    (x >>= f) = ⟨x.notices, .error e⟩ := by
  show andThen x f = _
  unfold andThen
  rw [h]

/-- What comes after gives its notices later. -/
theorem bind_of_ok {x : Logged α} {a : α} (h : x.outcome = .ok a) (f : α → Logged β) :
    (x >>= f) = ⟨x.notices ++ (f a).notices, (f a).outcome⟩ := by
  show andThen x f = _
  unfold andThen
  rw [h]

theorem ofExcept_ok_bind (a : α) (f : α → Logged β) : (ofExcept (.ok a) >>= f) = f a := rfl

theorem bind_pure_eq (x : Logged α) (f : α → β) :
    (x >>= fun a => pure (f a)) = ⟨x.notices, x.outcome.map f⟩ := by
  cases h : x.outcome with
  | error e => exact bind_of_error h _
  | ok a =>
    rw [bind_of_ok h]
    exact congrArg₂ mk (List.append_nil _) rfl

end Logged

/-! ## One descriptor -/

namespace Descriptor

/-- **Whether a descriptor declares these targets**: it can be read, it says what a descriptor
should, and each of its tables makes one of the targets. -/
def Yields (t : FileTree) (root : Path) (defaults : TargetSettings) (b : Bindings) (file : Path)
    (targets : List Target) : Prop :=
  ∃ text specs, t.read file = .ok text ∧ parse text = .ok specs ∧
    List.Forall₂ (fun spec target =>
      (TargetSpec.target t root defaults b spec).outcome = .ok target) specs targets

/-- **Why a descriptor declares no targets**: it cannot be read, it does not say what a descriptor
should, or one of its tables makes no target, of which the first decides. -/
inductive Refused (t : FileTree) (root : Path) (defaults : TargetSettings) (b : Bindings)
    (file : Path) : Failure → Prop
  | unreadable {cause : FileError} (h : t.read file = .error cause) :
      Refused t root defaults b file (.unreadable file cause)
  | invalid {text : String} {cause : ContentError} (h : t.read file = .ok text)
      (hparse : parse text = .error cause) :
      Refused t root defaults b file (.descriptor file cause)
  | table {text : String} {before after : List TargetSpec} {spec : TargetSpec} {e : Failure}
      (h : t.read file = .ok text) (hparse : parse text = .ok (before ++ spec :: after))
      (hbefore : ∀ other ∈ before, ∃ target, (other.target t root defaults b).outcome = .ok target)
      (hspec : (spec.target t root defaults b).outcome = .error e) :
      Refused t root defaults b file e

theorem outcome_targets (specs : List TargetSpec) :
    (Descriptor.targets t root defaults b specs).outcome =
      specs.mapM fun spec => (spec.target t root defaults b).outcome := by
  induction specs with
  | nil => rfl
  | cons spec r ih =>
    rw [Descriptor.targets, Logged.outcome_bind, List.mapM_cons]
    refine congrArg (Except.bind _) (funext fun target => ?_)
    rw [Logged.outcome_bind, ih]
    rfl

theorem outcome_load (file : Path) :
    (load t root defaults b file).outcome =
      ((t.read file).mapError (.unreadable file) >>= fun text =>
        (parse text).mapError (.descriptor file) >>= fun specs =>
          specs.mapM fun spec => (spec.target t root defaults b).outcome) := by
  rw [load, Logged.outcome_bind]
  refine congrArg (Except.bind _) (funext fun text => ?_)
  rw [Logged.outcome_bind]
  exact congrArg (Except.bind _) (funext fun specs => outcome_targets specs)

theorem outcome_load_eq_ok_iff :
    (load t root defaults b file).outcome = .ok targets ↔
      Yields t root defaults b file targets := by
  simp only [outcome_load, bind_eq_ok_iff, mapError_eq_ok_iff, mapM_eq_ok_iff,
    ← List.forall₂_eq_eq_eq, List.forall₂_map_left_iff, List.forall₂_map_right_iff]
  constructor
  · rintro ⟨text, hread, specs, hparse, h⟩
    exact ⟨text, specs, hread, hparse, h⟩
  · rintro ⟨text, specs, hread, hparse, h⟩
    exact ⟨text, hread, specs, hparse, h⟩

theorem outcome_load_eq_error_iff :
    (load t root defaults b file).outcome = .error e ↔ Refused t root defaults b file e := by
  simp only [outcome_load, bind_eq_error_iff, mapError_eq_ok_iff, mapError_eq_error_iff,
    mapM_eq_error_iff]
  constructor
  · rintro (⟨cause, hread, rfl⟩ | ⟨text, hread, ⟨cause, hparse, rfl⟩ |
      ⟨_, hparse, before, spec, after, rfl, hbefore, hspec⟩⟩)
    · exact .unreadable hread
    · exact .invalid hread hparse
    · exact .table hread hparse hbefore hspec
  · rintro (hread | ⟨hread, hparse⟩ | ⟨hread, hparse, hbefore, hspec⟩)
    · exact .inl ⟨_, hread, rfl⟩
    · exact .inr ⟨_, hread, .inl ⟨_, hparse, rfl⟩⟩
    · exact .inr ⟨_, hread, .inr ⟨_, hparse, _, _, _, rfl, hbefore, hspec⟩⟩

end Descriptor

/-! ## Declarations -/

/-- The names that a descriptor declares, each with the descriptor. -/
def declarations (file : Path) (targets : List Target) : List (String × Path) :=
  targets.map fun k => (k.name, file)

/-- Whether no name is declared twice. -/
def DistinctNames (ds : List (String × Path)) : Prop := (ds.map Prod.fst).Nodup

theorem distinctNames_append_singleton_iff {ds : List (String × Path)} {d : String × Path} :
    DistinctNames (ds ++ [d]) ↔ DistinctNames ds ∧ d.1 ∉ ds.map Prod.fst := by
  rw [DistinctNames, DistinctNames, List.map_append, List.map_singleton, List.nodup_append_comm,
    List.singleton_append, List.nodup_cons, and_comm]

theorem DistinctNames.of_append {ds more : List (String × Path)} (h : DistinctNames (ds ++ more)) :
    DistinctNames ds := by
  rw [DistinctNames, List.map_append] at h
  exact h.of_append_left

/-- A name is looked up among declarations, the latest of which comes first. -/
theorem find?_reverse_eq_none_iff {ds : List (String × Path)} {name : String} :
    ds.reverse.find? (·.1 = name) = none ↔ name ∉ ds.map Prod.fst := by
  simp only [List.find?_eq_none, List.mem_reverse, decide_eq_true_eq, List.mem_map, not_exists,
    not_and]

theorem find?_reverse_eq_some_iff {ds : List (String × Path)} (h : DistinctNames ds)
    {name : String} {d : String × Path} :
    ds.reverse.find? (·.1 = name) = some d ↔ d ∈ ds ∧ d.1 = name := by
  constructor
  · intro hd
    have hname := List.find?_some hd
    exact ⟨List.mem_reverse.1 (List.mem_of_find?_eq_some hd), of_decide_eq_true hname⟩
  · rintro ⟨hd, rfl⟩
    cases hfind : ds.reverse.find? (·.1 = d.1) with
    | none => exact absurd (List.mem_map_of_mem hd) (find?_reverse_eq_none_iff.1 hfind)
    | some d' =>
      have hname := List.find?_some hfind
      have hd' := List.mem_reverse.1 (List.mem_of_find?_eq_some hfind)
      rw [List.inj_on_of_nodup_map h hd' hd (of_decide_eq_true hname)]

section Declare

variable {earlier : List (String × Path)}

theorem declarations_cons (file : Path) (target : Target) (r : List Target) :
    earlier ++ declarations file (target :: r) =
      earlier ++ [(target.name, file)] ++ declarations file r := by
  rw [List.append_assoc]
  rfl

/-- Where the name of the first target is new, the others are declared after it. -/
theorem declare_cons_of_not_mem {target : Target} (h : target.name ∉ earlier.map Prod.fst)
    (r : List Target) :
    discoverFrom.declare file earlier.reverse (target :: r) =
      discoverFrom.declare file (earlier ++ [(target.name, file)]).reverse r := by
  rw [discoverFrom.declare, find?_reverse_eq_none_iff.2 h, List.reverse_append]
  rfl

/-- **Targets can be declared when no name comes to be declared twice.** -/
theorem declare_eq_ok_iff (h : DistinctNames earlier) {declared : List (String × Path)} :
    discoverFrom.declare file earlier.reverse targets = .ok declared ↔
      DistinctNames (earlier ++ declarations file targets) ∧
        declared = (earlier ++ declarations file targets).reverse := by
  induction targets generalizing earlier with
  | nil =>
    rw [discoverFrom.declare, declarations, List.map_nil, List.append_nil, and_iff_right h]
    exact (Except.ok.injEq _ _).to_iff.trans eq_comm
  | cons target r ih =>
    rw [declarations_cons]
    by_cases hname : target.name ∈ earlier.map Prod.fst
    · obtain ⟨d, hd, hdname⟩ := List.mem_map.1 hname
      rw [discoverFrom.declare, (find?_reverse_eq_some_iff h).2 ⟨hd, hdname⟩]
      simp only [reduceCtorEq, false_iff, not_and]
      exact fun hall => absurd hname (distinctNames_append_singleton_iff.1 hall.of_append).2
    · rw [declare_cons_of_not_mem hname, ih (distinctNames_append_singleton_iff.2 ⟨h, hname⟩)]

/-- **Otherwise the first target decides whose name is declared already**, in a descriptor before or
in this one. -/
theorem declare_eq_error_iff (h : DistinctNames earlier) :
    discoverFrom.declare file earlier.reverse targets = .error e ↔
      ∃ before target after first, targets = before ++ target :: after ∧
        DistinctNames (earlier ++ declarations file before) ∧
        (target.name, first) ∈ earlier ++ declarations file before ∧
        e = .declaredTwice target.name first file := by
  constructor
  · intro herror
    induction targets generalizing earlier with
    | nil => cases herror
    | cons target r ih =>
      by_cases hname : target.name ∈ earlier.map Prod.fst
      · obtain ⟨⟨name, first⟩, hd, rfl⟩ := List.mem_map.1 hname
        rw [discoverFrom.declare, (find?_reverse_eq_some_iff h).2 ⟨hd, rfl⟩] at herror
        cases herror
        exact ⟨[], target, r, first, rfl, by simpa [declarations] using h,
          by simpa [declarations] using hd, rfl⟩
      · rw [declare_cons_of_not_mem hname] at herror
        obtain ⟨before, again, after, first, rfl, hd, hfirst, rfl⟩ :=
          ih (distinctNames_append_singleton_iff.2 ⟨h, hname⟩) herror
        rw [← declarations_cons] at hd hfirst
        exact ⟨target :: before, again, after, first, rfl, hd, hfirst, rfl⟩
  · rintro ⟨before, target, after, first, rfl, hd, hfirst, rfl⟩
    induction before generalizing earlier with
    | nil =>
      rw [declarations, List.map_nil, List.append_nil] at hfirst
      rw [List.nil_append, discoverFrom.declare, (find?_reverse_eq_some_iff h).2 ⟨hfirst, rfl⟩]
    | cons k before ih =>
      rw [declarations_cons] at hd hfirst
      have hk := distinctNames_append_singleton_iff.1 hd.of_append
      rw [List.cons_append, declare_cons_of_not_mem hk.2]
      exact ih (distinctNames_append_singleton_iff.2 hk) hd hfirst

end Declare

/-! ## Descriptor after descriptor -/

/-- The names that descriptors declare, each of which is given with its targets. -/
def declarationsOf (read : List (Path × List Target)) : List (String × Path) :=
  read.flatMap fun g => declarations g.1 g.2

theorem map_fst_declarationsOf (read : List (Path × List Target)) :
    (declarationsOf read).map Prod.fst = (read.flatMap (·.2)).map (·.name) := by
  rw [declarationsOf, List.map_flatMap, List.map_flatMap]
  refine List.flatMap_congr fun g _ => ?_
  rw [declarations, List.map_map]
  rfl

/-- What is wrong with a descriptor after those with the declarations `earlier`, as a failure. -/
inductive Descriptor.Stops (t : FileTree) (root : Path) (defaults : TargetSettings) (b : Bindings)
    (earlier : List (String × Path)) (file : Path) : Failure → Prop
  /-- It declares no targets. -/
  | refused {e : Failure} (h : Refused t root defaults b file e) :
      Stops t root defaults b earlier file e
  /-- The target `target` of the descriptor is the first to have a name that is declared already, in
  the descriptor `first`. -/
  | repeated {before after : List Target} {target : Target} {first : Path}
      (h : Yields t root defaults b file (before ++ target :: after))
      (hbefore : DistinctNames (earlier ++ declarations file before))
      (hfirst : (target.name, first) ∈ earlier ++ declarations file before) :
      Stops t root defaults b earlier file (.declaredTwice target.name first file)

section Discover

variable {earlier : List (String × Path)} {files : List Path}

/-- Something is wrong with a descriptor that declares targets when these cannot be declared. -/
theorem Descriptor.stops_iff_of_yields (hd : DistinctNames earlier)
    (h : Yields t root defaults b file targets) :
    Stops t root defaults b earlier file e ↔
      discoverFrom.declare file earlier.reverse targets = .error e := by
  have hload := outcome_load_eq_ok_iff.2 h
  rw [declare_eq_error_iff hd]
  constructor
  · rintro (hrefused | ⟨hyields, hbefore, hfirst⟩)
    · rw [outcome_load_eq_error_iff.2 hrefused] at hload
      cases hload
    · obtain rfl := Except.ok.inj (hload.symm.trans (outcome_load_eq_ok_iff.2 hyields))
      exact ⟨_, _, _, _, rfl, hbefore, hfirst, rfl⟩
  · rintro ⟨before, target, after, first, rfl, hbefore, hfirst, rfl⟩
    exact .repeated h hbefore hfirst

/-- With what is wrong with the next descriptor the discovery ends. -/
theorem discoverFrom_cons_of_stops (hd : DistinctNames earlier)
    (h : Descriptor.Stops t root defaults b earlier file e) (r : List Path) :
    discoverFrom t root defaults b earlier.reverse (file :: r) =
      ⟨(Descriptor.load t root defaults b file).notices, .error e⟩ := by
  cases hload : (Descriptor.load t root defaults b file).outcome with
  | error e' =>
    cases h with
    | refused hrefused =>
      rw [Descriptor.outcome_load_eq_error_iff.2 hrefused] at hload
      cases hload
      exact Logged.bind_of_error (Descriptor.outcome_load_eq_error_iff.2 hrefused) _
    | repeated hyields =>
      rw [Descriptor.outcome_load_eq_ok_iff.2 hyields] at hload
      cases hload
  | ok found =>
    rw [Descriptor.stops_iff_of_yields hd (Descriptor.outcome_load_eq_ok_iff.1 hload)] at h
    rw [discoverFrom, Logged.bind_of_ok hload, h, Logged.bind_of_error rfl]
    exact congrArg₂ Logged.mk (List.append_nil _) rfl

/-- With a descriptor whose targets can be declared it goes on. -/
theorem discoverFrom_cons_of_yields (hd : DistinctNames (earlier ++ declarations file targets))
    (h : Descriptor.Yields t root defaults b file targets) (r : List Path) :
    discoverFrom t root defaults b earlier.reverse (file :: r) =
      let rest := discoverFrom t root defaults b (earlier ++ declarations file targets).reverse r
      ⟨(Descriptor.load t root defaults b file).notices ++ rest.notices,
        rest.outcome.map (targets ++ ·)⟩ := by
  have hdeclare := (declare_eq_ok_iff hd.of_append).2 ⟨hd, rfl⟩
  rw [discoverFrom, Logged.bind_of_ok (Descriptor.outcome_load_eq_ok_iff.2 h), hdeclare,
    Logged.ofExcept_ok_bind, Logged.bind_pure_eq]

theorem declarationsOf_cons (file : Path) (targets : List Target)
    (read : List (Path × List Target)) :
    earlier ++ declarationsOf ((file, targets) :: read) =
      earlier ++ declarations file targets ++ declarationsOf read := by
  rw [declarationsOf, List.flatMap_cons, ← declarationsOf, List.append_assoc]

theorem Descriptor.Yields.unique {others : List Target}
    (h : Yields t root defaults b file targets) (h' : Yields t root defaults b file others) :
    targets = others :=
  Except.ok.inj ((outcome_load_eq_ok_iff.2 h).symm.trans (outcome_load_eq_ok_iff.2 h'))

/-- Either something is wrong with a descriptor, or it declares targets that can be declared. -/
theorem Descriptor.stops_or_yields (hd : DistinctNames earlier) (file : Path) :
    (∃ e, Stops t root defaults b earlier file e) ∨
      ∃ targets, Yields t root defaults b file targets ∧
        DistinctNames (earlier ++ declarations file targets) := by
  cases hload : (load t root defaults b file).outcome with
  | error e => exact .inl ⟨e, .refused (outcome_load_eq_error_iff.1 hload)⟩
  | ok targets =>
    have hyields := outcome_load_eq_ok_iff.1 hload
    cases hdeclare : discoverFrom.declare file earlier.reverse targets with
    | error e => exact .inl ⟨e, (stops_iff_of_yields hd hyields).2 hdeclare⟩
    | ok declared => exact .inr ⟨targets, hyields, ((declare_eq_ok_iff hd).1 hdeclare).1⟩

theorem Descriptor.Stops.not_distinctNames (hd : DistinctNames earlier)
    (h : Stops t root defaults b earlier file e) (hyields : Yields t root defaults b file targets) :
    ¬ DistinctNames (earlier ++ declarations file targets) := by
  intro hdistinct
  have herror := (stops_iff_of_yields hd hyields).1 h
  rw [(declare_eq_ok_iff hd).2 ⟨hdistinct, rfl⟩] at herror
  cases herror

theorem Descriptor.Stops.unique {e' : Failure} (hd : DistinctNames earlier)
    (h : Stops t root defaults b earlier file e) (h' : Stops t root defaults b earlier file e') :
    e = e' := by
  have heq := (discoverFrom_cons_of_stops hd h []).symm.trans (discoverFrom_cons_of_stops hd h' [])
  exact Except.error.inj (congrArg Logged.outcome heq)

/-- **Discovery succeeds when every descriptor declares targets and no name is declared twice.** -/
theorem outcome_discoverFrom_eq_ok_iff (hd : DistinctNames earlier) :
    (discoverFrom t root defaults b earlier.reverse files).outcome = .ok targets ↔
      ∃ read : List (Path × List Target), files = read.map Prod.fst ∧
        (∀ g ∈ read, Descriptor.Yields t root defaults b g.1 g.2) ∧
        DistinctNames (earlier ++ declarationsOf read) ∧ targets = read.flatMap (·.2) := by
  induction files generalizing earlier targets with
  | nil =>
    constructor
    · intro h
      cases h
      exact ⟨[], rfl, nofun, by rwa [declarationsOf, List.flatMap_nil, List.append_nil], rfl⟩
    · rintro ⟨read, hfiles, -, -, rfl⟩
      rw [List.map_eq_nil_iff.1 hfiles.symm]
      rfl
  | cons file r ih =>
    rcases Descriptor.stops_or_yields hd file with ⟨e, hstops⟩ | ⟨found, hfound, hdistinct⟩
    · rw [discoverFrom_cons_of_stops hd hstops]
      refine iff_of_false nofun ?_
      rintro ⟨_ | ⟨⟨_, others⟩, read⟩, hfiles, hread, hall, -⟩
      · cases hfiles
      · obtain ⟨rfl, -⟩ := List.cons.inj hfiles
        have hothers := (List.forall_mem_cons.1 hread).1
        rw [declarationsOf_cons] at hall
        exact hstops.not_distinctNames hd hothers hall.of_append
    · rw [discoverFrom_cons_of_yields hdistinct hfound]
      dsimp only
      rw [map_eq_ok_iff]
      simp only [ih hdistinct]
      constructor
      · rintro ⟨_, ⟨read, rfl, hread, hall, rfl⟩, rfl⟩
        exact ⟨(file, found) :: read, rfl, List.forall_mem_cons.2 ⟨hfound, hread⟩,
          by rwa [declarationsOf_cons], rfl⟩
      · rintro ⟨_ | ⟨⟨_, others⟩, read⟩, hfiles, hread, hall, rfl⟩
        · cases hfiles
        · obtain ⟨rfl, rfl⟩ := List.cons.inj hfiles
          obtain ⟨hothers, hmore⟩ := List.forall_mem_cons.1 hread
          obtain rfl := hfound.unique hothers
          rw [declarationsOf_cons] at hall
          exact ⟨_, ⟨read, rfl, hmore, hall, rfl⟩, rfl⟩

/-- **Otherwise the first descriptor decides with which something is wrong**, and none behind it is
read: the notices are those of the descriptors up to this one. -/
theorem outcome_discoverFrom_eq_error_iff (hd : DistinctNames earlier) :
    (discoverFrom t root defaults b earlier.reverse files).outcome = .error e ↔
      ∃ (read : List (Path × List Target)) (file : Path) (after : List Path),
        files = read.map Prod.fst ++ file :: after ∧
        (∀ g ∈ read, Descriptor.Yields t root defaults b g.1 g.2) ∧
        DistinctNames (earlier ++ declarationsOf read) ∧
        Descriptor.Stops t root defaults b (earlier ++ declarationsOf read) file e ∧
        (discoverFrom t root defaults b earlier.reverse files).notices =
          (read.map Prod.fst ++ [file]).flatMap
            fun f => (Descriptor.load t root defaults b f).notices := by
  induction files generalizing earlier with
  | nil => exact iff_of_false nofun fun ⟨_, _, _, hfiles, _⟩ => by simp at hfiles
  | cons file r ih =>
    rcases Descriptor.stops_or_yields hd file with ⟨e', hstops⟩ | ⟨found, hfound, hdistinct⟩
    · rw [discoverFrom_cons_of_stops hd hstops]
      constructor
      · intro h
        cases h
        have hempty : earlier ++ declarationsOf [] = earlier := List.append_nil earlier
        exact ⟨[], file, r, rfl, nofun, by rwa [hempty], by rwa [hempty],
          (List.flatMap_singleton _ _).symm⟩
      · rintro ⟨_ | ⟨⟨_, others⟩, read⟩, again, after, hfiles, hread, hall, hagain, -⟩
        · obtain ⟨rfl, rfl⟩ := List.cons.inj hfiles
          rw [declarationsOf, List.flatMap_nil, List.append_nil] at hagain
          rw [hstops.unique hd hagain]
        · obtain ⟨rfl, -⟩ := List.cons.inj hfiles
          have hothers := (List.forall_mem_cons.1 hread).1
          rw [declarationsOf_cons] at hall
          exact absurd hall.of_append (hstops.not_distinctNames hd hothers)
    · rw [discoverFrom_cons_of_yields hdistinct hfound]
      dsimp only
      rw [map_eq_error_iff, ih hdistinct]
      constructor
      · rintro ⟨read, again, after, rfl, hread, hall, hagain, hnotices⟩
        refine ⟨(file, found) :: read, again, after, rfl, List.forall_mem_cons.2 ⟨hfound, hread⟩,
          by rwa [declarationsOf_cons], by rwa [declarationsOf_cons], ?_⟩
        rw [hnotices]
        rfl
      · rintro ⟨_ | ⟨⟨_, others⟩, read⟩, again, after, hfiles, hread, hall, hagain, hnotices⟩
        · obtain ⟨rfl, -⟩ := List.cons.inj hfiles
          rw [declarationsOf, List.flatMap_nil, List.append_nil] at hagain
          exact absurd hdistinct (hagain.not_distinctNames hd hfound)
        · obtain ⟨rfl, rfl⟩ := List.cons.inj hfiles
          obtain ⟨hothers, hmore⟩ := List.forall_mem_cons.1 hread
          obtain rfl := hfound.unique hothers
          rw [declarationsOf_cons] at hall hagain
          rw [List.map_cons, List.cons_append, List.flatMap_cons,
            List.append_cancel_left_eq] at hnotices
          exact ⟨read, again, after, rfl, hmore, hall, hagain, hnotices⟩

/-- A name that is declared again hides what is wrong with the descriptors behind. -/
example :
    let table := fun name => "[[target]]\nname = \"" ++ name ++ "\"\noutput = \"x\"\n"
    let t := ((FileTree.empty.put ["a"] (.file (table "lib" ++ table "app"))).put ["b"]
      (.file (table "test" ++ table "app"))).put ["c"] (.file "not a descriptor")
    (discoverFrom t ⟨"/"⟩ {} .empty [] [⟨"/a"⟩, ⟨"/b"⟩, ⟨"/c"⟩]).outcome =
      .error (.declaredTwice "app" ⟨"/a"⟩ ⟨"/b"⟩) := by
  decide +kernel

end Discover

/-! ## Names that are declared twice -/

/-- Only patterns can be wrong in a list of sources. -/
theorem Glob.exists_pattern_of_filesFrom {base : Path} {found : List Path} {entries : List String}
    (h : (Glob.filesFrom t base found entries).outcome = .error e) :
    ∃ pattern cause, e = .invalidPattern pattern cause := by
  induction entries generalizing found with
  | nil => cases h
  | cons entry r ih =>
    rw [filesFrom, Logged.outcome_bind] at h
    rcases bind_eq_error_iff.1 h with h | ⟨ps, -, h⟩
    · unfold entryFiles at h
      split at h
      · split at h
        · cases h
          exact ⟨_, _, rfl⟩
        · cases h
        · cases h
      · cases h
    · exact ih h

/-- A table that makes no target declares no name. -/
theorem TargetSpec.outcome_target_ne_declaredTwice {spec : TargetSpec} {name : String}
    {first again : Path} :
    (spec.target t root defaults b).outcome ≠ .error (.declaredTwice name first again) := by
  intro h
  rw [TargetSpec.target, Logged.outcome_bind] at h
  rcases bind_eq_error_iff.1 h with h | ⟨entries, -, h⟩
  · obtain ⟨cause, -, h⟩ := mapError_eq_error_iff.1 h
    cases h
  · rw [Logged.outcome_bind] at h
    rcases bind_eq_error_iff.1 h with h | ⟨files, -, h⟩
    · obtain ⟨pattern, cause, h⟩ := Glob.exists_pattern_of_filesFrom h
      cases h
    · cases h

/-- Only a name that is declared already is reported as declared twice. -/
theorem Descriptor.stops_declaredTwice_iff {earlier : List (String × Path)} {name : String}
    {first again : Path} :
    Stops t root defaults b earlier file (.declaredTwice name first again) ↔
      again = file ∧ ∃ before target after,
        Yields t root defaults b file (before ++ target :: after) ∧ target.name = name ∧
        DistinctNames (earlier ++ declarations file before) ∧
        (name, first) ∈ earlier ++ declarations file before := by
  constructor
  · intro h
    cases h with
    | refused h =>
      cases h with
      | table _ _ _ hspec => exact absurd hspec TargetSpec.outcome_target_ne_declaredTwice
    | repeated hyields hbefore hfirst => exact ⟨rfl, _, _, _, hyields, rfl, hbefore, hfirst⟩
  · rintro ⟨rfl, before, target, after, hyields, rfl, hbefore, hfirst⟩
    exact .repeated hyields hbefore hfirst

/-! ## The targets of a project -/

/-- **The descriptors of a project**: what the search finds, in the order of the paths. Which files
these are is said by `finds_iff_of_isDirectory`. -/
structure Finds (t : FileTree) (root buildRoot : Path) (found : List Path) : Prop where
  search : t.filesNamed root Descriptor.fileName [root.join buildRoot] = .ok found
  ordered : found.Pairwise fun p q => p.le q = true

theorem finds_iff {found : List Path} :
    Finds t root buildRoot found ↔
      t.filesNamed root Descriptor.fileName [root.join buildRoot] = .ok found := by
  refine ⟨Finds.search, fun h => ⟨h, ?_⟩⟩
  unfold FileTree.filesNamed at h
  split at h
  · cases h
  · cases h
  · cases h
    split
    · exact List.pairwise_singleton _ _
    · exact List.Pairwise.nil
  · cases h
    exact Path.pairwise_sort _

/-- **Below a directory, the descriptors of a project are the files of their name** to which a
search comes that passes hidden directories and the build root by, in the order of their paths. -/
theorem finds_iff_of_isDirectory (ht : t.IsProper) (hroot : t.isDirectory root = true)
    {found : List Path} :
    Finds t root buildRoot found ↔
      Path.IsListing found ∧
        ∀ p, p ∈ found ↔ ∃ names, p = Glob.extend root names ∧
          names.getLast? = some Descriptor.fileName ∧
          (∃ text, t.at? (root.location ++ names) = some (.file text)) ∧
          FileTree.IsOpen root [root.join buildRoot] names := by
  have hsearch := @FileTree.filesNamed_of_isDirectory t root Descriptor.fileName
    [root.join buildRoot] hroot
  rw [finds_iff]
  constructor
  · intro h
    exact ⟨FileTree.isListing_of_filesNamed ht hroot h,
      fun p => FileTree.mem_filesNamed_iff hroot h⟩
  · rintro ⟨hlisting, hmem⟩
    rw [hsearch]
    refine congrArg Except.ok (Path.IsListing.eq_of_mem_iff
      (FileTree.isListing_of_filesNamed ht hroot hsearch) hlisting fun p => ?_)
    rw [FileTree.mem_filesNamed_iff hroot hsearch, hmem]

theorem distinctNames_declarationsOf_iff {read : List (Path × List Target)} :
    DistinctNames (declarationsOf read) ↔ ((read.flatMap (·.2)).map (·.name)).Nodup := by
  rw [DistinctNames, map_fst_declarationsOf]

/-- **Whether the discovery ends at a descriptor**: those before it declare targets whose names are
distinct, and the notices are those of the descriptors up to this one, so that none behind it has
been read. -/
structure EndsAt (t : FileTree) (root buildRoot : Path) (defaults : TargetSettings) (b : Bindings)
    (read : List (Path × List Target)) (file : Path) (after : List Path) : Prop where
  finds : Finds t root buildRoot (read.map Prod.fst ++ file :: after)
  yields : ∀ g ∈ read, Descriptor.Yields t root defaults b g.1 g.2
  distinct : ((read.flatMap (·.2)).map (·.name)).Nodup
  notices : (discoverTargets t root buildRoot defaults b).notices =
    (read.map Prod.fst ++ [file]).flatMap fun f => (Descriptor.load t root defaults b f).notices

section Project

theorem discoverTargets_of_error
    (h : t.filesNamed root Descriptor.fileName [root.join buildRoot] = .error e) :
    discoverTargets t root buildRoot defaults b = .fail e := by
  rw [discoverTargets, h]
  exact Logged.bind_of_error rfl _

theorem discoverTargets_of_finds_nil (h : Finds t root buildRoot []) :
    discoverTargets t root buildRoot defaults b = .fail (.noDescriptors root) := by
  rw [discoverTargets, h.search, Logged.ofExcept_ok_bind, if_pos rfl]

theorem discoverTargets_of_finds {found : List Path} (h : Finds t root buildRoot found)
    (hne : found ≠ []) :
    discoverTargets t root buildRoot defaults b = discoverFrom t root defaults b [] found := by
  rw [discoverTargets, h.search, Logged.ofExcept_ok_bind, if_neg hne]

theorem outcome_discoverFrom_nil_eq_ok_iff {found : List Path} :
    (discoverFrom t root defaults b [] found).outcome = .ok targets ↔
      ∃ read : List (Path × List Target), found = read.map Prod.fst ∧
        (∀ g ∈ read, Descriptor.Yields t root defaults b g.1 g.2) ∧
        ((read.flatMap (·.2)).map (·.name)).Nodup ∧ targets = read.flatMap (·.2) := by
  have hnil : DistinctNames [] := List.nodup_nil
  rw [← List.reverse_nil, outcome_discoverFrom_eq_ok_iff hnil]
  simp only [List.nil_append, distinctNames_declarationsOf_iff]

theorem outcome_discoverFrom_nil_eq_error_iff {found : List Path} :
    (discoverFrom t root defaults b [] found).outcome = .error e ↔
      ∃ read file after, found = read.map Prod.fst ++ file :: after ∧
        (∀ g ∈ read, Descriptor.Yields t root defaults b g.1 g.2) ∧
        ((read.flatMap (·.2)).map (·.name)).Nodup ∧
        Descriptor.Stops t root defaults b (declarationsOf read) file e ∧
        (discoverFrom t root defaults b [] found).notices =
          (read.map Prod.fst ++ [file]).flatMap
            fun f => (Descriptor.load t root defaults b f).notices := by
  have hnil : DistinctNames [] := List.nodup_nil
  rw [← List.reverse_nil, outcome_discoverFrom_eq_error_iff hnil]
  simp only [List.nil_append, distinctNames_declarationsOf_iff]

theorem outcome_discoverTargets_eq_ok_iff :
    (discoverTargets t root buildRoot defaults b).outcome = .ok targets ↔
      ∃ read : List (Path × List Target), Finds t root buildRoot (read.map Prod.fst) ∧ read ≠ [] ∧
        (∀ g ∈ read, Descriptor.Yields t root defaults b g.1 g.2) ∧
        targets = read.flatMap (·.2) ∧ (targets.map (·.name)).Nodup := by
  constructor
  · intro h
    cases hsearch : t.filesNamed root Descriptor.fileName [root.join buildRoot] with
    | error e =>
      rw [discoverTargets_of_error hsearch] at h
      cases h
    | ok found =>
      have hfinds := finds_iff.2 hsearch
      by_cases hne : found = []
      · subst hne
        rw [discoverTargets_of_finds_nil hfinds] at h
        cases h
      · rw [discoverTargets_of_finds hfinds hne] at h
        obtain ⟨read, rfl, hread, hdistinct, rfl⟩ := outcome_discoverFrom_nil_eq_ok_iff.1 h
        exact ⟨read, hfinds, mt List.map_eq_nil_iff.2 hne, hread, rfl, hdistinct⟩
  · rintro ⟨read, hfinds, hne, hread, rfl, hdistinct⟩
    rw [discoverTargets_of_finds hfinds (mt List.map_eq_nil_iff.1 hne)]
    exact outcome_discoverFrom_nil_eq_ok_iff.2 ⟨read, rfl, hread, hdistinct, rfl⟩

theorem outcome_discoverTargets_eq_error_iff :
    (discoverTargets t root buildRoot defaults b).outcome = .error e ↔
      t.filesNamed root Descriptor.fileName [root.join buildRoot] = .error e ∨
      Finds t root buildRoot [] ∧ e = .noDescriptors root ∨
      ∃ read file after, EndsAt t root buildRoot defaults b read file after ∧
        Descriptor.Stops t root defaults b (declarationsOf read) file e := by
  constructor
  · intro h
    cases hsearch : t.filesNamed root Descriptor.fileName [root.join buildRoot] with
    | error e' =>
      rw [discoverTargets_of_error hsearch] at h
      cases h
      exact .inl rfl
    | ok found =>
      have hfinds := finds_iff.2 hsearch
      by_cases hne : found = []
      · subst hne
        rw [discoverTargets_of_finds_nil hfinds] at h
        cases h
        exact .inr (.inl ⟨hfinds, rfl⟩)
      · have heq := @discoverTargets_of_finds _ _ _ defaults b _ hfinds hne
        rw [heq] at h
        obtain ⟨read, file, after, rfl, hread, hdistinct, hstops, hnotices⟩ :=
          outcome_discoverFrom_nil_eq_error_iff.1 h
        rw [← heq] at hnotices
        exact .inr (.inr ⟨read, file, after, ⟨hfinds, hread, hdistinct, hnotices⟩, hstops⟩)
  · rintro (hsearch | ⟨hfinds, rfl⟩ | ⟨read, file, after, hends, hstops⟩)
    · rw [discoverTargets_of_error hsearch]
      rfl
    · rw [discoverTargets_of_finds_nil hfinds]
      rfl
    · have hnotices := hends.notices
      rw [discoverTargets_of_finds hends.finds (by simp)] at hnotices ⊢
      exact outcome_discoverFrom_nil_eq_error_iff.2
        ⟨read, file, after, rfl, hends.yields, hends.distinct, hstops, hnotices⟩

theorem filesNamed_ne_declaredTwice {name : String} {first again : Path} :
    t.filesNamed root Descriptor.fileName [root.join buildRoot] ≠
      .error (.declaredTwice name first again) := by
  intro h
  unfold FileTree.filesNamed at h
  split at h <;> cases h

/-- **The targets of a project.** There are some when a descriptor is found, each that is found
declares targets, and no name is declared twice, be it in one descriptor or in two. They are those
of the descriptors in the order of the paths, and of each in the order of its tables. Otherwise the
first descriptor decides with which something is wrong, and none behind it is read. Where this is a
name, it is the first that is declared again, and the failure tells the descriptor that declares it
first and the one that does again. -/
theorem discoverTargets_in_order (t : FileTree) (root buildRoot : Path)
    (defaults : TargetSettings) (b : Bindings) :
    (∀ targets, (discoverTargets t root buildRoot defaults b).outcome = .ok targets ↔
      ∃ read : List (Path × List Target), Finds t root buildRoot (read.map Prod.fst) ∧ read ≠ [] ∧
        (∀ g ∈ read, Descriptor.Yields t root defaults b g.1 g.2) ∧
        targets = read.flatMap (·.2) ∧ (targets.map (·.name)).Nodup) ∧
    (∀ e, (discoverTargets t root buildRoot defaults b).outcome = .error e ↔
      t.filesNamed root Descriptor.fileName [root.join buildRoot] = .error e ∨
      Finds t root buildRoot [] ∧ e = .noDescriptors root ∨
      ∃ read file after, EndsAt t root buildRoot defaults b read file after ∧
        Descriptor.Stops t root defaults b (declarationsOf read) file e) ∧
    ∀ name first again,
      (discoverTargets t root buildRoot defaults b).outcome =
          .error (.declaredTwice name first again) ↔
        ∃ read after before target more, EndsAt t root buildRoot defaults b read again after ∧
          Descriptor.Yields t root defaults b again (before ++ target :: more) ∧
          target.name = name ∧ DistinctNames (declarationsOf read ++ declarations again before) ∧
          (name, first) ∈ declarationsOf read ++ declarations again before := by
  refine ⟨fun targets => outcome_discoverTargets_eq_ok_iff,
    fun e => outcome_discoverTargets_eq_error_iff, fun name first again => ?_⟩
  rw [outcome_discoverTargets_eq_error_iff]
  simp only [Descriptor.stops_declaredTwice_iff]
  constructor
  · rintro (hsearch | ⟨-, hnone⟩ | ⟨read, _, after, hends, rfl, before, target, more, h⟩)
    · exact absurd hsearch filesNamed_ne_declaredTwice
    · cases hnone
    · exact ⟨read, after, before, target, more, hends, h⟩
  · rintro ⟨read, after, before, target, more, hends, h⟩
    exact .inr (.inr ⟨read, again, after, hends, rfl, before, target, more, h⟩)

/-- The path of the directory `a` comes before that of `a-b`, although the text `a-b/` comes before
`a/`. So the targets of the one come first, and a name that both declare is declared again by the
other. -/
theorem discoverTargets_in_order_hyphenated :
    let table := fun name => "[[target]]\nname = \"" ++ name ++ "\"\noutput = \"x\"\n"
    let project := fun name =>
      ((((FileTree.empty.put ["p"] .directory).put ["p", "a"] .directory).put
        ["p", "a", "BUILD.toml"] (.file (table "lib"))).put ["p", "a-b"] .directory).put
        ["p", "a-b", "BUILD.toml"] (.file (table name))
    let discover := fun t => (discoverTargets t ⟨"/p"⟩ ⟨"build"⟩ {} .empty).outcome
    let first : Path := ⟨"/p/a/BUILD.toml"⟩
    let second : Path := ⟨"/p/a-b/BUILD.toml"⟩
    second.text < first.text ∧
      (∃ targets, discover (project "app") = .ok targets ∧
        targets.map (·.name) = ["lib", "app"]) ∧
      discover (project "lib") = .error (.declaredTwice "lib" first second) := by
  intro table project discover first second
  have hlisting : Path.IsListing [first, second] := by
    unfold Path.IsListing
    decide +kernel
  have hfinds : ∀ name ∈ ["app", "lib"],
      Finds (project name) ⟨"/p"⟩ ⟨"build"⟩ [first, second] := by
    intro name hname
    have hroot : (project name).isDirectory ⟨"/p"⟩ = true := by
      revert name
      decide +kernel
    have hnames : ((project name).namesOfFiles ⟨"/p"⟩ Descriptor.fileName
        [Path.join ⟨"/p"⟩ ⟨"build"⟩]).map (Glob.extend ⟨"/p"⟩) = [second, first] := by
      revert name
      decide +kernel
    rw [finds_iff, FileTree.filesNamed_of_isDirectory hroot, hnames,
      Path.sort_eq_of_perm hlisting (List.Perm.swap _ _ _)]
  have hload : ∀ name ∈ ["app", "lib"],
      ((Descriptor.load (project name) ⟨"/p"⟩ {} .empty first).outcome.map (·.map (·.name)) =
          .ok ["lib"]) ∧
        (Descriptor.load (project name) ⟨"/p"⟩ {} .empty second).outcome.map (·.map (·.name)) =
          .ok [name] := by
    decide +kernel
  refine ⟨by decide, ?_, ?_⟩
  · obtain ⟨hsuccess, -, -⟩ := discoverTargets_in_order (project "app") ⟨"/p"⟩ ⟨"build"⟩ {} .empty
    obtain ⟨⟨lib, hlib, hlibnames⟩, app, happ, happnames⟩ :=
      (hload "app" (by decide)).imp map_eq_ok_iff.1 map_eq_ok_iff.1
    have hnames : (lib ++ app).map (·.name) = ["lib", "app"] := by
      rw [List.map_append, hlibnames, happnames]
      rfl
    refine ⟨lib ++ app, (hsuccess _).2 ⟨[(first, lib), (second, app)], hfinds "app" (by decide),
      nofun, ?_, by simp, by rw [hnames]; decide⟩, hnames⟩
    simpa using ⟨Descriptor.outcome_load_eq_ok_iff.1 hlib, Descriptor.outcome_load_eq_ok_iff.1 happ⟩
  · obtain ⟨-, -, hrepeated⟩ := discoverTargets_in_order (project "lib") ⟨"/p"⟩ ⟨"build"⟩ {} .empty
    obtain ⟨⟨lib, hlib, hlibnames⟩, again, hagain, hagainnames⟩ :=
      (hload "lib" (by decide)).imp map_eq_ok_iff.1 map_eq_ok_iff.1
    obtain ⟨k, rfl, hk⟩ := List.map_eq_singleton_iff.1 hlibnames
    obtain ⟨l, rfl, hl⟩ := List.map_eq_singleton_iff.1 hagainnames
    have hfound := hfinds "lib" (by decide)
    refine (hrepeated "lib" first second).2 ⟨[(first, [k])], [], [], l, [],
      ⟨hfound, ?_, List.nodup_singleton _, ?_⟩, Descriptor.outcome_load_eq_ok_iff.1 hagain, hl,
      List.nodup_singleton _, hk ▸ List.mem_cons_self⟩
    · exact List.forall_mem_singleton.2 (Descriptor.outcome_load_eq_ok_iff.1 hlib)
    · rw [discoverTargets_of_finds hfound nofun]
      show _ = [first, second].flatMap _
      decide +kernel

end Project

end NinjaGen
