import Parlance.Command.Console

/-!
Contract: starting a project.

Owns: the files of a new project and the command that creates them at a path that leads nowhere yet.
A path may lead to a folder that is there once the folders on its way are created; its files are
then written over, but a source folder has to be new. Embeds `new` and `scaffold`.
-/

namespace Parlance.Command

def settingsTemplate : String :=
  "[parser]\nmax_depth = 32\n\n[format]\nindent = 2\n"

def mainTemplate : String :=
  "# Hello from Concorde!\n" ++
  "class Greeter(name = \"world\")\n" ++
  "  def greet() = \"Hello, \" + name\n" ++
  "end\n\n" ++
  "greeter = Greeter()\n" ++
  "print(greeter.greet())\n"

def ignoreTemplate : String :=
  "__pycache__/\n.concorde/\n"

def readmeTemplate (name : String) : String :=
  "# " ++ name ++ "\n\nA Concorde project.\n\n## Check\n\n```bash\nconcorde check\n```\n\n" ++
    "## Format\n\n```bash\nconcorde format\n```\n"

/-- The files of a new project by their places in its folder, in the order they are written. -/
def projectFiles (name : String) : List (String × String) :=
  [("/" ++ Settings.fileName, settingsTemplate), ("/src/main.cdr", mainTemplate),
    ("/.gitignore", ignoreTemplate), ("/README.md", readmeTemplate name)]

/-- Writes files below a written path, up to the first that cannot be written. -/
def writeFiles (project : String)
    (files : Files) : List (String × String) → Files × Option Files.Obstacle
  | [] => (files, none)
  | (place, content) :: rest =>
    match files.writeAt (project ++ place) content with
    | .error obstacle => (files, some obstacle)
    | .ok files => writeFiles project files rest

def projectPath (folder : Path) (name : String) : String :=
  if Path.isAbsolute name then Path.tidy name else Path.tidy (folder.absolute ++ "/" ++ name)

/-- Reports what stands where a project's folder is to be created. -/
def reportOccupied (style : Style) (message : String) (console : Console) : Outcome :=
  (console.warn style ("error: " ++ message)).exit 1

def buildProject (machine : Machine) (style : Style) (project : String) (name : String)
    (console : Console) : Outcome :=
  let parts := Path.parts (project ++ "/src")
  if Path.isTooFar (project ++ "/src") then console.abort (.obstacle .refused)
  else if machine.folders < console.files.missingParts [] parts then console.abort .exhausted
  else
    match console.files.makeFolders [] parts with
    | (files, some (.occupied, rest)) =>
      let taken := "/".intercalate (parts.take (parts.length - rest.length))
      reportOccupied style ("[Errno 17] File exists: " ++ Text.quoted taken)
        { console with files := files }
    | (files, some (obstacle, _)) => { console with files := files }.abort (.obstacle obstacle)
    | (files, none) =>
      match writeFiles project files (projectFiles name) with
      | (files, some obstacle) => { console with files := files }.abort (.obstacle obstacle)
      | (files, none) =>
        ({ console with files := files }.say style
          ("created project '" ++ name ++ "' at " ++ project)).exit 0

/-- Creates a project, unless something stands at its path. -/
def scaffold (machine : Machine) (style : Style) (folder : Path) (name : String)
    (console : Console) : Outcome :=
  let project := projectPath folder name
  if !Path.isNameable name then console.abort .unnameable
  else
    match console.files.reach [] project with
    | .ok _ => reportOccupied style ("Directory '" ++ name ++ "' already exists") console
    | .error .missing => buildProject machine style project name console
    | .error obstacle => console.abort (.obstacle obstacle)

end Parlance.Command
