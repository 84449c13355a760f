import NinjaGen.Path.Basic

/-!
# Languages

A source is compiled as C or as C++, and its extension says which.

* `Language.ofExtension?` and `Language.ofPath?` classify; the extension of the files that collect
  sources of a language is one of that language (`ofExtension?_unityExtension`).
* `SourceFile` is a path with its language, and `SourceFile.ofPath?` pairs them
  (`ofPath?_eq_some_iff`).
-/

namespace NinjaGen

/-- A language in which sources are written. -/
inductive Language
  | c
  | cxx
  deriving DecidableEq, Repr, Inhabited

namespace Language

/-- The languages, in the order in which sources are collected. -/
def all : List Language := [c, cxx]

theorem mem_all (l : Language) : l ∈ all := by cases l <;> decide

/-- The name shown to the user. -/
def name : Language → String
  | c => "c"
  | cxx => "c++"

/-- The name used in file names and in data. -/
def ident : Language → String
  | c => "c"
  | cxx => "cxx"

/-- The extension of a file that collects sources of the language. -/
def unityExtension : Language → String
  | c => "c"
  | cxx => "cpp"

/-- The language that a word in data means. -/
def ofWord? : String → Option Language
  | "c" => some c
  | "cxx" | "cpp" | "c++" => some cxx
  | _ => none

theorem ofWord?_ident (l : Language) : ofWord? l.ident = some l := by cases l <;> rfl

/-- The language of files with an extension. A capital `C` means C++ everywhere. -/
def ofExtension? : String → Option Language
  | "c" => some c
  | "cpp" | "cc" | "cxx" | "c++" | "C" | "CPP" | "CC" | "CXX" => some cxx
  | _ => none

theorem ofExtension?_unityExtension (l : Language) : ofExtension? l.unityExtension = some l := by
  cases l <;> rfl

/-- The language of the file that a path names. -/
def ofPath? (p : Path) : Option Language := p.extension?.bind ofExtension?

end Language

/-- A source with its language. -/
structure SourceFile where
  path : Path
  lang : Language
  deriving DecidableEq, Repr

namespace SourceFile

/-- The path as a source, if it is one. -/
def ofPath? (p : Path) : Option SourceFile := (Language.ofPath? p).map fun l => ⟨p, l⟩

theorem ofPath?_eq_some_iff {p : Path} {s : SourceFile} :
    ofPath? p = some s ↔ s.path = p ∧ Language.ofPath? p = some s.lang := by
  obtain ⟨q, l⟩ := s
  simp only [ofPath?, Option.map_eq_some_iff, SourceFile.mk.injEq]
  constructor
  · rintro ⟨l', h, rfl, rfl⟩
    exact ⟨rfl, h⟩
  · rintro ⟨rfl, h⟩
    exact ⟨l, h, rfl, rfl⟩

end SourceFile

end NinjaGen
