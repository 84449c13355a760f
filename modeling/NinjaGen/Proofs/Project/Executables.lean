import NinjaGen.Config

/-!
# The executables of a run

A toolchain profile is the usual one of a family of compilers, with the chosen executables in place
of the usual ones. What is left open follows from what is chosen: the C++ compiler from the C
compiler, and the linker from the C++ compiler.

* `ToolchainSettings.Chooses` says which family is chosen.
* `ToolchainSettings.Equips` says what the executables of a profile are; nothing about the profile
  is left open by it (`Equips.unique`).
* `ToolchainSettings.toProfile_spec` puts this together.
-/

namespace NinjaGen

theorem ToolchainProfile.exists_compiler_error_iff {t : ToolchainProfile} {l : Language} :
    (∃ e, t.compiler l = .error e) ↔ t.compiler? l = none ∨ t.compiler? l = some "" := by
  unfold compiler
  cases t.compiler? l with
  | none => simp
  | some c => by_cases hc : c = "" <;> simp [hc]

/-- A name of a C++ compiler that is guessed is not empty. -/
theorem inferCxx_ne_empty (cc : String) : inferCxx cc ≠ "" := by
  have hne : ∀ cs : List Char, String.ofList (cs ++ ['+', '+']) ≠ "" := fun cs h => by
    simp [← String.toList_inj] at h
  unfold inferCxx
  dsimp only
  split
  · exact hne _
  · split
    · exact hne _
    · split
      · exact hne _
      · exact hne _

namespace ToolchainSettings

variable {s : ToolchainSettings} {p : Platform} {asked : Option Platform}
  {profile : ToolchainProfile}

/-- The compiler that is chosen for a language. -/
def compiler? (s : ToolchainSettings) : Language → Option String
  | .c => s.cc
  | .cxx => s.cxx

/-- Whether a family of compilers is chosen: it is asked for, or else configured by one of its
names, or else it is GCC. -/
def Chooses (s : ToolchainSettings) (asked : Option Platform) (p : Platform) : Prop :=
  asked = some p ∨ asked = none ∧
    ((∃ name, s.profile = some name ∧ Platform.ofName? name = some p) ∨
      s.profile = none ∧ p = .gcc)

theorem platform_eq_ok_iff_chooses : s.platform asked = .ok p ↔ s.Chooses asked p := by
  unfold platform Chooses
  cases asked with
  | some q => simp
  | none =>
    cases s.profile with
    | none => simp [eq_comm]
    | some name => cases h : Platform.ofName? name <;> simp [h]

/-- **The executables of a profile of a family of compilers.** -/
structure Equips (s : ToolchainSettings) (p : Platform) (profile : ToolchainProfile) : Prop where
  /-- What is chosen is used as it is. -/
  chosen : (∀ cc, s.cc = some cc → profile.cCompiler = some cc) ∧
    (∀ cxx, s.cxx = some cxx → profile.cxxCompiler = some cxx) ∧
    (∀ linker, s.linker = some linker → profile.linker = linker) ∧
    ∀ ar, s.ar = some ar → profile.archiver = ar
  /-- A language cannot be compiled when the choice for it, and for no other, is the empty name. -/
  unsupported : ∀ l, (∃ e, profile.compiler l = .error e) ↔ s.compiler? l = some ""
  /-- The C compiler and the archiver are the usual ones where they are left open. -/
  usual : (s.cc = none → profile.cCompiler = (ToolchainProfile.ofPlatform p).cCompiler) ∧
    (s.ar = none → profile.archiver = (ToolchainProfile.ofPlatform p).archiver)
  /-- The C++ compiler is the one that belongs to the chosen C compiler. -/
  inferred : s.cxx = none → ∀ cc, s.cc = some cc → cc ≠ "" →
    profile.cxxCompiler = some (inferCxx cc)
  /-- Where no C compiler is chosen, it is the usual one. -/
  usualCxx : s.cxx = none → s.cc = none ∨ s.cc = some "" →
    profile.cxxCompiler = (ToolchainProfile.ofPlatform p).cxxCompiler
  /-- The C++ compiler is the linker of a family whose compilers link. -/
  linkedByCxx : s.linker = none → p ≠ .msvc → ∀ cxx, profile.compiler .cxx = .ok cxx →
    profile.linker = cxx
  /-- Without a C++ compiler, and where compilers do not link, it is the usual one. -/
  usualLinker : s.linker = none → p = .msvc ∨ (∃ e, profile.compiler .cxx = .error e) →
    profile.linker = (ToolchainProfile.ofPlatform p).linker
  /-- All else is as usual. -/
  rest : profile = { ToolchainProfile.ofPlatform p with
    cCompiler := profile.cCompiler
    cxxCompiler := profile.cxxCompiler
    linker := profile.linker
    archiver := profile.archiver }

/-- The usual profile of a family has a compiler for each language, and its C++ compiler links
unless the family is MSVC. -/
theorem compiler_ofPlatform (p : Platform) :
    (∀ l, ∃ c, (ToolchainProfile.ofPlatform p).compiler? l = some c ∧ c ≠ "") ∧
      (p ≠ .msvc → (ToolchainProfile.ofPlatform p).cxxCompiler =
        some (ToolchainProfile.ofPlatform p).linker) := by
  cases p
  case msvc => exact ⟨fun l => ⟨"cl", by cases l <;> rfl, by decide⟩, fun h => absurd rfl h⟩
  case gcc =>
    refine ⟨fun l => ?_, fun _ => rfl⟩
    cases l
    · exact ⟨"gcc", rfl, by decide⟩
    · exact ⟨"g++", rfl, by decide⟩
  case clang =>
    refine ⟨fun l => ?_, fun _ => rfl⟩
    cases l
    · exact ⟨"clang", rfl, by decide⟩
    · exact ⟨"clang++", rfl, by decide⟩

/-! ## The profile over a family -/

/-- The C++ compiler that goes with the choices is empty only if it is chosen to be. -/
theorem chosenCxx_eq_empty_iff : s.chosenCxx = some "" ↔ s.cxx = some "" := by
  unfold chosenCxx
  cases s.cxx with
  | some cxx => simp
  | none =>
    cases s.cc with
    | none => simp
    | some cc => by_cases hcc : cc = "" <;> simp [hcc, inferCxx_ne_empty]

/-- A language cannot be compiled when the choice for it is the empty name. -/
theorem exists_error_overPlatform_iff {l : Language} :
    (∃ e, (s.overPlatform p).compiler l = .error e) ↔ s.compiler? l = some "" := by
  have hor : ∀ {o : Option String} {c : String}, c ≠ "" →
      (o.or (some c) = none ∨ o.or (some c) = some "" ↔ o = some "") := by
    intro o c hc
    cases o <;> simp [hc]
  obtain ⟨c, hc, hne⟩ := (compiler_ofPlatform p).1 l
  rw [ToolchainProfile.exists_compiler_error_iff]
  cases l with
  | c =>
    have hchosen : (s.overPlatform p).compiler? .c = s.cc.or (some c) := by rw [← hc]; rfl
    rw [hchosen, hor hne]
    rfl
  | cxx =>
    have hchosen : (s.overPlatform p).compiler? .cxx = s.chosenCxx.or (some c) := by rw [← hc]; rfl
    rw [hchosen, hor hne, chosenCxx_eq_empty_iff]
    rfl

/-- Where compilers link and no linker is chosen, the C++ compiler is the linker. -/
theorem linker_overPlatform {cxx : String} (hlinker : s.linker = none) (hp : p ≠ .msvc)
    (h : (s.overPlatform p).compiler .cxx = .ok cxx) : (s.overPlatform p).linker = cxx := by
  obtain ⟨hcxx, hne⟩ := ToolchainProfile.compiler_eq_ok_iff.1 h
  have hchosen : s.chosenCxx.or (some (ToolchainProfile.ofPlatform p).linker) = some cxx := by
    rw [← (compiler_ofPlatform p).2 hp, ← hcxx]
    rfl
  unfold overPlatform chosenLinker
  rw [hlinker]
  simp only [if_neg hp]
  cases hs : s.chosenCxx with
  | none => simpa [hs] using hchosen
  | some c =>
    obtain rfl : c = cxx := by simpa [hs] using hchosen
    simp [Option.filter, hne]

theorem usualLinker_overPlatform (hlinker : s.linker = none)
    (h : p = .msvc ∨ ∃ e, (s.overPlatform p).compiler .cxx = .error e) :
    (s.overPlatform p).linker = (ToolchainProfile.ofPlatform p).linker := by
  unfold overPlatform chosenLinker
  rw [hlinker]
  rcases h with hp | herror
  · simp [hp]
  · rw [chosenCxx_eq_empty_iff.2 (exists_error_overPlatform_iff.1 herror)]
    simp [Option.filter]

theorem equips_overPlatform (s : ToolchainSettings) (p : Platform) :
    s.Equips p (s.overPlatform p) where
  chosen := ⟨fun cc h => by simp [overPlatform, h],
    fun cxx h => by simp [overPlatform, chosenCxx, h],
    fun linker h => by simp [overPlatform, chosenLinker, h],
    fun ar h => by simp [overPlatform, h]⟩
  unsupported _ := exists_error_overPlatform_iff
  usual := ⟨fun h => by simp [overPlatform, h], fun h => by simp [overPlatform, h]⟩
  inferred hcxx cc hcc hne := by simp [overPlatform, chosenCxx, hcxx, hcc, hne]
  usualCxx hcxx hcc := by rcases hcc with hcc | hcc <;> simp [overPlatform, chosenCxx, hcxx, hcc]
  linkedByCxx hlinker hp cxx := linker_overPlatform hlinker hp
  usualLinker := usualLinker_overPlatform
  rest := rfl

/-- Nothing about a profile is left open by what its executables are. -/
theorem Equips.unique {other : ToolchainProfile} (h : s.Equips p profile)
    (h' : s.Equips p other) : profile = other := by
  have hcc : profile.cCompiler = other.cCompiler := by
    cases hs : s.cc with
    | none => rw [h.usual.1 hs, h'.usual.1 hs]
    | some cc => rw [h.chosen.1 cc hs, h'.chosen.1 cc hs]
  have hcxx : profile.cxxCompiler = other.cxxCompiler := by
    cases hs : s.cxx with
    | some cxx => rw [h.chosen.2.1 cxx hs, h'.chosen.2.1 cxx hs]
    | none =>
      by_cases husual : s.cc = none ∨ s.cc = some ""
      · rw [h.usualCxx hs husual, h'.usualCxx hs husual]
      · obtain ⟨hne, hempty⟩ := not_or.1 husual
        obtain ⟨cc, hcc⟩ := Option.ne_none_iff_exists'.1 hne
        have hcc' : cc ≠ "" := fun heq => hempty (heq ▸ hcc)
        rw [h.inferred hs cc hcc hcc', h'.inferred hs cc hcc hcc']
  have hcompiler : profile.compiler .cxx = other.compiler .cxx := by
    rw [ToolchainProfile.compiler, ToolchainProfile.compiler, ToolchainProfile.compiler?,
      ToolchainProfile.compiler?, hcxx]
  have hlinker : profile.linker = other.linker := by
    cases hs : s.linker with
    | some linker => rw [h.chosen.2.2.1 linker hs, h'.chosen.2.2.1 linker hs]
    | none =>
      by_cases hp : p = .msvc
      · rw [h.usualLinker hs (.inl hp), h'.usualLinker hs (.inl hp)]
      · cases hc : profile.compiler .cxx with
        | ok cxx => rw [h.linkedByCxx hs hp cxx hc, h'.linkedByCxx hs hp cxx (hcompiler ▸ hc)]
        | error e =>
          rw [h.usualLinker hs (.inr ⟨e, hc⟩), h'.usualLinker hs (.inr ⟨e, hcompiler ▸ hc⟩)]
  have harchiver : profile.archiver = other.archiver := by
    cases hs : s.ar with
    | none => rw [h.usual.2 hs, h'.usual.2 hs]
    | some ar => rw [h.chosen.2.2.2 ar hs, h'.chosen.2.2.2 ar hs]
  rw [h.rest, h'.rest, hcc, hcxx, hlinker, harchiver]

/-- **The profile that choices describe** is that of the chosen family with the executables of the
choices, and there is one unless the family is configured by a name that none has. -/
theorem toProfile_spec (s : ToolchainSettings) (asked : Option Platform)
    (profile : ToolchainProfile) :
    s.toProfile asked = .ok profile ↔ ∃ p, s.Chooses asked p ∧ s.Equips p profile := by
  rw [toProfile, map_eq_ok_iff]
  simp only [platform_eq_ok_iff_chooses]
  constructor
  · rintro ⟨p, hp, rfl⟩
    exact ⟨p, hp, equips_overPlatform s p⟩
  · rintro ⟨p, hp, h⟩
    exact ⟨p, hp, (equips_overPlatform s p).unique h⟩

/-- A cross compiler brings the C++ compiler along, which links as well. -/
example : (({ cc := some "arm-gcc" } : ToolchainSettings).toProfile (some .clang)).toOption =
    some { ToolchainProfile.ofPlatform .clang with
      cCompiler := some "arm-gcc"
      cxxCompiler := some "arm-g++"
      linker := "arm-g++" } := by decide +kernel

end ToolchainSettings

end NinjaGen
