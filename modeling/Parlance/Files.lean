import Parlance.Keyed
import Parlance.Text.Lines

/-!
Contract: a tree of folders and files.

A path is the row of names from the root. Owns: paths as they are written, what stands at a path,
and changes of the tree. Folders hold no data of their own and have one name each, so a written path
can be taken apart without looking at the tree; following it step by step needs every step to be a
folder, and neither a name nor the path as a whole to be too long. A file may have several names, may
hold what is no text, and need not be open for reading or writing. Does not own: any real disk.
-/

namespace Parlance

abbrev Path := List String

namespace Path

def pieces : List Char → List (List Char)
  | [] => [[]]
  | c :: rest =>
    if c == '/' then [] :: pieces rest
    else
      match pieces rest with
      | [] => [[c]]
      | piece :: following => (c :: piece) :: following

def parts (text : String) : List String :=
  (pieces text.toList).map String.ofList

def isAbsolute (text : String) : Bool :=
  text.toList.head? == some '/'

def step (here : Path) (part : String) : Path :=
  if part == "" || part == "." then here
  else if part == ".." then here.dropLast
  else here ++ [part]

def resolve (folder : Path) (text : String) : Path :=
  (parts text).foldl step (if isAbsolute text then [] else folder)

def absolute (path : Path) : String :=
  "/" ++ "/".intercalate path

/-- A written path without empty and single-point parts; what is left of nothing is a point. Two
slashes at the start are kept, and more are one. -/
def tidy (text : String) : String :=
  let kept := (parts text).filter fun part => !(part == "" || part == ".")
  let root :=
    match text.toList with
    | '/' :: '/' :: '/' :: _ => "/"
    | '/' :: '/' :: _ => "//"
    | '/' :: _ => "/"
    | _ => ""
  let tidied := root ++ "/".intercalate kept
  if tidied == "" then "." else tidied

def join (folder : String) (names : Path) : String :=
  let rest := "/".intercalate names
  if folder == "." then rest
  else if folder.toList.getLast? == some '/' then folder ++ rest
  else folder ++ "/" ++ rest

def isTooLong (name : String) : Bool :=
  decide (255 < name.utf8ByteSize)

/-- The length in bytes up to which a written path is followed. -/
def lengthLimit : Nat := 4095

def isTooFar (text : String) : Bool :=
  decide (lengthLimit < text.utf8ByteSize)

def extent (path : Path) : Nat :=
  path.foldl (fun length name => length + (name.utf8ByteSize + 1)) 0

/-- Whether a written path can name anything. A null character stands in no name. -/
def isNameable (text : String) : Bool :=
  !text.toList.contains '\x00'

/-- The order of paths: name by name, and each name by code points. -/
def before : Path → Path → Bool
  | [], _ => true
  | _ :: _, [] => false
  | left :: lefts, right :: rights =>
    if left == right then before lefts rights else decide (left < right)

end Path

inductive Files.Content where
  | text (value : String)
  /-- Bytes that are no text. -/
  | garbled
  /-- Something that is not open for reading. -/
  | closed
deriving DecidableEq, Repr

structure Files.File where
  content : Content
  writable : Bool
deriving DecidableEq, Repr

inductive Files.Node where
  | folder
  | file (file : File)
deriving DecidableEq, Repr

def Files.Node.isFile : Node → Bool
  | .folder => false
  | .file _ => true

/-- A tree, as what stands at each of its paths. The root is always a folder. -/
structure Files where
  nodes : List (Path × Files.Node)
  /-- The further names of files, each with the path that the file is kept under. -/
  links : List (Path × Path)
  /-- Only one thing stands at a path. -/
  distinct : (nodes.map Prod.fst).Nodup
  /-- A further name is one of one file. -/
  single : (links.map Prod.fst).Nodup
deriving DecidableEq, Repr

namespace Files

def empty : Files := ⟨[], [], List.nodup_nil, List.nodup_nil⟩

def paths (files : Files) : List Path :=
  (files.nodes.map Prod.fst).filter (fun path => (files.links.lookup path).isNone) ++
    files.links.map Prod.fst

/-- The path that what stands at a path is kept under. -/
def home (files : Files) (path : Path) : Path :=
  (files.links.lookup path).getD path

def get? (files : Files) (path : Path) : Option Node :=
  match path with
  | [] => some .folder
  | path =>
    match files.links.lookup path with
    | none => files.nodes.lookup path
    | some home => (files.nodes.lookup home).filter Node.isFile

def isFolder (files : Files) (path : Path) : Bool :=
  files.get? path == some .folder

def isClosed (files : Files) (path : Path) : Bool :=
  match files.get? path with
  | some (.file file) => file.content == .closed
  | _ => false

def textAt? (files : Files) (path : Path) : Option String :=
  match files.get? path with
  | some (.file ⟨.text text, _⟩) => some text
  | _ => none

def unified (text : String) : String :=
  String.ofList (Text.unifyBreaks text.toList)

/-- The tree with a node at a path, and with it at all paths of the same file. -/
def put (files : Files) (path : Path) (node : Node) : Files :=
  { files with
    nodes := Keyed.put (files.home path) node files.nodes
    distinct := Keyed.nodup_put (files.home path) node files.distinct }

/-- The tree with a further name for the file that is kept under a path. -/
def link (files : Files) (path : Path) (home : Path) : Files :=
  { files with
    links := Keyed.put path home files.links
    single := Keyed.nodup_put path home files.single }

def addFolder (files : Files) (path : Path) : Files :=
  match files.get? path with
  | some _ => files
  | none => files.put path .folder

/-- The tree with folders along the names from a folder on. -/
def addFolders (files : Files) : Path → List String → Files
  | _, [] => files
  | here, name :: rest => addFolders (files.addFolder (here ++ [name])) (here ++ [name]) rest

/-- The tree with a file at a path, open for reading and writing, and folders down to it. -/
def write (files : Files) (path : Path) (content : Content) : Files :=
  (files.addFolders [] path.dropLast).put path (.file ⟨content, true⟩)

/-- The tree below a folder that a row of written paths with texts describes. A path that ends in a
slash is a folder. -/
def ofList (root : Path) (given : List (String × String)) : Files :=
  given.foldl
    (fun files (name, text) =>
      let path := Path.resolve root name
      if name.toList.getLast? == some '/' then files.addFolders [] path
      else files.write path (.text text))
    (empty.addFolders [] root)

/-- What stands in the way of following a path or of using the place it leads to. -/
inductive Obstacle where
  /-- Nothing stands at a place. -/
  | missing
  /-- A file stands where a folder is needed. -/
  | blocked
  /-- A name, or the path as a whole, is too long to be looked up. -/
  | refused
  /-- Something stands already where a folder is to be created. -/
  | occupied
  /-- A folder stands where a file is needed. -/
  | folder
  /-- A file holds no text. -/
  | garbled
  /-- A file is not open for reading. -/
  | closed
  /-- A file is not open for writing. -/
  | locked
deriving DecidableEq, Repr

def read (files : Files) (path : Path) : Except Obstacle String :=
  match files.get? path with
  | none => .error .missing
  | some .folder => .error .folder
  | some (.file ⟨.text text, _⟩) => .ok text
  | some (.file ⟨.garbled, _⟩) => .error .garbled
  | some (.file ⟨.closed, _⟩) => .error .closed

def readUnified (files : Files) (path : Path) : Except Obstacle String :=
  (files.read path).map unified

/-- What keeps a text from being written to the file at a path, which may be new. -/
def barrier? (files : Files) (path : Path) : Option Obstacle :=
  match files.get? path with
  | none => none
  | some .folder => some .folder
  | some (.file file) => if file.writable then none else some .locked

def File.rewritten (file : File) (text : String) : File :=
  match file.content with
  | .closed => file
  | .text _ | .garbled => { file with content := .text text }

def rewrite (files : Files) (path : Path) (text : String) : Except Obstacle Files :=
  match files.barrier? path with
  | some obstacle => .error obstacle
  | none =>
    match files.get? path with
    | some (.file file) => .ok (files.put path (.file (file.rewritten text)))
    | _ => .ok (files.put path (.file ⟨.text text, true⟩))

/-- Follows the parts of a written path from a place. Every place that a part is taken from has to
be a folder; nothing needs to stand at the end. -/
def walk (files : Files) : Path → List String → Except Obstacle Path
  | here, [] => .ok here
  | here, part :: rest =>
    match files.get? here with
    | none => .error .missing
    | some (.file _) => .error .blocked
    | some .folder =>
      if Path.isTooLong part then .error .refused else walk files (Path.step here part) rest

/-- The place that a written path leads to from a folder. Nothing needs to stand there. -/
def placeAt (files : Files) (folder : Path) (text : String) : Except Obstacle Path :=
  if text == "" then .error .missing
  else if Path.isTooFar text then .error .refused
  else files.walk (if Path.isAbsolute text then [] else folder) (Path.parts text)

/-- Follows a written path from a folder to what it leads to. -/
def reach (files : Files) (folder : Path) (text : String) : Except Obstacle Path :=
  match files.placeAt folder text with
  | .error obstacle => .error obstacle
  | .ok place => if (files.get? place).isSome then .ok place else .error .missing

def probe (files : Files) (path : Path) : Except Obstacle Node :=
  if Path.lengthLimit < path.extent then .error .refused
  else
    match files.walk [] path with
    | .error obstacle => .error obstacle
    | .ok place =>
      match files.get? place with
      | some node => .ok node
      | none => .error .missing

/-- The text, with line breaks made one kind, of the file that a written path leads to. There is none
if it leads to no file that is open for reading, and an obstacle if the file holds no text. -/
def sourceText (files : Files) (folder : Path) (text : String) : Except Obstacle (Option String) :=
  match files.reach folder (Path.tidy text) with
  | .error _ => .ok none
  | .ok place =>
    match files.readUnified place with
    | .ok text => .ok (some text)
    | .error .garbled => .error .garbled
    | .error _ => .ok none

/-- How many parts of a written path are left, from a folder on, where nothing stands any more. -/
def missingParts (files : Files) : Path → List String → Nat
  | _, [] => 0
  | here, part :: rest =>
    let next := Path.step here part
    if (files.get? next).isSome then missingParts files next rest else rest.length + 1

/-- Creates the folders that are missing along parts of a written path, which may lead back, and
with them the one at its end, which has to be new. On the way a folder may stand already. The parts
behind an obstacle are left over. -/
def makeFolders (files : Files) : Path → List String → Files × Option (Obstacle × List String)
  | _, [] => (files, none)
  | here, part :: rest =>
    let next := Path.step here part
    if Path.isTooLong part then (files, some (.refused, rest))
    else
      match files.get? next with
      | none => makeFolders (files.put next .folder) next rest
      | some .folder =>
        if rest.isEmpty then (files, some (.occupied, rest)) else makeFolders files next rest
      | some (.file _) => (files, some (.occupied, rest))

/-- Writes a text to the file that a path from the root leads to, which may be new. -/
def writeAt (files : Files) (text : String) (content : String) : Except Obstacle Files :=
  match files.placeAt [] text with
  | .error obstacle => .error obstacle
  | .ok place => files.rewrite place content

def below (files : Files) (folder : Path) : List Path :=
  (files.paths.filter fun path => folder.isPrefixOf path && path != folder).map
    fun path => path.drop folder.length

def foldersBelow (files : Files) (folder : Path) : List Path :=
  (files.below folder).filter fun rest => files.isFolder (folder ++ rest)

/-- The paths, from a folder down, of all that has a name with the given ending, in order. -/
def withEnding (files : Files) (folder : Path) (ending : String) : List Path :=
  ((files.below folder).filter fun path =>
    match path.getLast? with
    | some name => ending.toList.isSuffixOf name.toList
    | none => false).mergeSort Path.before

/-- The names from a folder down to the files below it that are new in the second tree or hold
another text than in the first, joined by slashes, with their texts, in order. -/
def changes (old : Files) (new : Files) (folder : Path) : List (String × String) :=
  let changed := (new.below folder).filterMap fun rest =>
    match new.textAt? (folder ++ rest) with
    | some text =>
      if old.textAt? (folder ++ rest) == some text then none
      else some ("/".intercalate rest, text)
    | none => none
  changed.mergeSort fun left right => decide (left.1 ≤ right.1)

end Files

end Parlance
