import NinjaGen.Ninja.Statement
import NinjaGen.Proofs.Ninja.Layout

/-!
# The line of an edge

The line of an edge names its files in six lists. It can be written exactly when no path holds a
line break.

* `escapedPath` is a path as the line holds it, `BuildEdge.paths` are all paths of an edge, and
  `BuildEdge.text` is its line.
* `BuildEdge.line_eq_ok_iff`: the line is written exactly when no path holds a line break, and then
  it is that text.
-/

namespace NinjaGen.Ninja

/-- A path in its escaped form. -/
def escapedPath (p : String) : String := String.ofList (escapePathText p.toList)

/-- Paths in their escaped form behind a mark; without paths there is no mark either. -/
def markedPaths (mark : String) (paths : List String) : List String :=
  if paths = [] then [] else mark :: paths.map escapedPath

theorem newline_not_mem_of_hasLineBreak {s : String} (h : hasLineBreak s = false) :
    '\n' ∉ s.toList := by
  intro hm
  simp only [hasLineBreak, List.any_eq_false, Bool.or_eq_true, decide_eq_true_eq, not_or] at h
  exact (h _ hm).1 rfl

theorem marked_eq_ok_iff {mark : String} {paths texts : List String} :
    marked mark paths = .ok texts ↔
      (∀ p ∈ paths, hasLineBreak p = false) ∧ texts = markedPaths mark paths := by
  simp only [marked, bind_eq_ok_iff, escapePaths_eq_ok_iff, pure, Except.pure, Except.ok.injEq]
  constructor
  · rintro ⟨es, ⟨hall, rfl⟩, rfl⟩
    exact ⟨hall, rfl⟩
  · rintro ⟨hall, rfl⟩
    exact ⟨_, ⟨hall, rfl⟩, rfl⟩

namespace BuildEdge

/-- The paths of an edge. -/
def paths (e : BuildEdge) : List String :=
  e.outputs ++ e.implicitOutputs ++ e.inputs ++ e.implicit ++ e.orderOnly

/-- The outputs as the line of an edge holds them. -/
def outputItems (e : BuildEdge) : List String :=
  e.outputs.map escapedPath ++ markedPaths "|" e.implicitOutputs

/-- The inputs as the line of an edge holds them. -/
def inputItems (e : BuildEdge) : List String :=
  e.inputs.map escapedPath ++ markedPaths "|" e.implicit ++ markedPaths "||" e.orderOnly

/-- The line of an edge. -/
def text (e : BuildEdge) : String :=
  "build " ++ " ".intercalate e.outputItems ++ ": " ++ " ".intercalate (e.rule :: e.inputItems)

/-- **The line of an edge is written exactly when no path of it holds a line break.** -/
theorem line_eq_ok_iff {e : BuildEdge} {s : String} :
    e.line = .ok s ↔ (∀ p ∈ e.paths, hasLineBreak p = false) ∧ s = e.text := by
  simp only [line, bind_eq_ok_iff, escapePaths_eq_ok_iff, marked_eq_ok_iff, pure, Except.pure,
    Except.ok.injEq, paths, List.forall_mem_append]
  constructor
  · rintro ⟨_, ⟨ho, rfl⟩, _, ⟨hio, rfl⟩, _, ⟨hi, rfl⟩, _, ⟨him, rfl⟩, _, ⟨hoo, rfl⟩, rfl⟩
    exact ⟨⟨⟨⟨⟨ho, hio⟩, hi⟩, him⟩, hoo⟩, rfl⟩
  · rintro ⟨⟨⟨⟨⟨ho, hio⟩, hi⟩, him⟩, hoo⟩, rfl⟩
    exact ⟨_, ⟨ho, rfl⟩, _, ⟨hio, rfl⟩, _, ⟨hi, rfl⟩, _, ⟨him, rfl⟩, _, ⟨hoo, rfl⟩, rfl⟩

end BuildEdge

end NinjaGen.Ninja
