import Parlance.Diagnostic.Sources
import Parlance.Files

/-!
Contract: diagnostics shown one after the other, while files change.

Owns: a file tree with the files of it that have been seen, and what each step does to the two:
registering a text, writing a file, showing a diagnostic. Does not own: which text a diagnostic is
shown against, which follows from the steps before it. Embeds the life of a `DiagnosticRenderer`.
-/

namespace Parlance

structure Viewer where
  files : Files
  sources : Sources

namespace Viewer

inductive Step where
  | register (file : String) (text : String)
  | write (path : Path) (content : Files.Content)
  | render (diagnostic : Diagnostic)

abbrev Shown := Option (Except Files.Obstacle String)

/-- What a step shows, if anything, and what is known behind it. Files are looked up from a folder.
A file that holds no text keeps its diagnostics from being shown, and nothing is known of it. -/
def act (palette : Palette) (folder : Path) (viewer : Viewer) : Step → Shown × Viewer
  | .register file text => (none, { viewer with sources := viewer.sources.add file text })
  | .write path content => (none, { viewer with files := viewer.files.write path content })
  | .render diagnostic =>
    match viewer.sources.render palette (viewer.files.sourceText folder) diagnostic with
    | .ok (shown, sources) => (some (.ok shown), { viewer with sources })
    | .error obstacle => (some (.error obstacle), viewer)

/-- What a row of steps shows, step by step, and what is known behind it. -/
def run (palette : Palette) (folder : Path) : Viewer → List Step → List Shown × Viewer
  | viewer, [] => ([], viewer)
  | viewer, step :: rest =>
    let acted := viewer.act palette folder step
    let following := run palette folder acted.2 rest
    (acted.1 :: following.1, following.2)

end Viewer

end Parlance
