import Parlance.Proofs.Files.Places

/-!
Contract: which settings govern a file below a folder.

In a tree in which every place can be walked to, settings are searched for from the folder of a file
outwards, and the search from a folder is the rest of the search from any place below it. So a file
is governed by the settings of a folder above it if no settings stand between the two. Owns: such
trees, looking places up in them, and this fact about the search.
-/

namespace Parlance

/-- Whether a name can be the name of anything in a folder. -/
def Path.isName (name : String) : Bool :=
  !(name == "" || name == "." || name == ".." || Path.isTooLong name)

/-- All names in a tree are names, and everything on the way to a place is a folder. -/
structure Files.Sound (files : Files) : Prop where
  names : ∀ path ∈ files.paths, ∀ name ∈ path, Path.isName name = true
  folders : ∀ path ∈ files.paths, ∀ count < path.length,
    files.get? (path.take count) = some .folder

instance (files : Files) : Decidable files.Sound :=
  decidable_of_iff
    ((∀ path ∈ files.paths, ∀ name ∈ path, Path.isName name = true) ∧
      ∀ path ∈ files.paths, ∀ count < path.length,
        files.get? (path.take count) = some .folder)
    ⟨fun sound => ⟨sound.1, sound.2⟩, fun sound => ⟨sound.names, sound.folders⟩⟩

namespace Files

/-! ## Walking to a place -/

section Walking

variable {files : Files} {path : Path} {node : Node}

theorem Sound.folder_above (sound : files.Sound) {here names : Path} (filled : names ≠ [])
    (stands : files.get? (here ++ names) = some node) :
    files.get? here = some .folder := by
  have member := mem_paths_of_get? stands (by simp [filled])
  have above := sound.folders _ member here.length
    (by simpa [List.length_pos_iff] using filled)
  simpa using above

theorem step_of_isName {name : String} (here : Path) (isName : Path.isName name = true) :
    Path.step here name = here ++ [name] ∧ Path.isTooLong name = false := by
  simp only [Path.isName, Bool.not_eq_true', Bool.or_eq_false_iff] at isName
  obtain ⟨⟨⟨notEmpty, notHere⟩, notUp⟩, notLong⟩ := isName
  exact ⟨by simp [Path.step, notEmpty, notHere, notUp], notLong⟩

theorem Sound.walk_eq (sound : files.Sound) {here names : Path}
    (stands : files.get? (here ++ names) = some node) :
    files.walk here names = .ok (here ++ names) := by
  induction names generalizing here with
  | nil => simp [walk]
  | cons name rest ih =>
    have isFolder := sound.folder_above (by simp) stands
    have member := mem_paths_of_get? stands (by simp)
    have isName := sound.names _ member name (by simp)
    obtain ⟨steps, notLong⟩ := step_of_isName here isName
    have further : files.get? ((here ++ [name]) ++ rest) = some node := by simpa using stands
    rw [walk, isFolder]
    simp only [notLong, Bool.false_eq_true, ↓reduceIte, steps, ih further]
    simp

/-- What stands at a place is found there, unless its path is too long. -/
theorem Sound.probe_eq (sound : files.Sound) (stands : files.get? path = some node) :
    files.probe path = if Path.lengthLimit < path.extent then .error .refused else .ok node := by
  have leads : files.walk [] path = .ok path := sound.walk_eq (by simpa using stands)
  simp only [probe, leads, stands]

theorem walk_append (here first second : Path) :
    files.walk here (first ++ second) =
      match files.walk here first with
      | .ok there => files.walk there second
      | .error obstacle => .error obstacle := by
  induction first generalizing here with
  | nil => rfl
  | cons part rest ih =>
    rw [List.cons_append, walk, walk]
    cases files.get? here with
    | none => rfl
    | some node =>
      cases node with
      | file => rfl
      | folder =>
        dsimp only
        split
        · rfl
        · exact ih _

/-- A name that does not stand in a folder is missing there, unless the path to it is too long. -/
theorem Sound.probe_missing (sound : files.Sound) {name : String}
    (isFolder : files.get? path = some .folder) (isName : Path.isName name = true)
    (missing : files.get? (path ++ [name]) = none) :
    files.probe (path ++ [name]) = .error .refused ∨
      files.probe (path ++ [name]) = .error .missing := by
  have leads : files.walk [] path = .ok path := sound.walk_eq (by simpa using isFolder)
  obtain ⟨steps, notLong⟩ := step_of_isName path isName
  have further : files.walk [] (path ++ [name]) = .ok (path ++ [name]) := by
    rw [walk_append, leads]
    simp only [walk, isFolder, notLong, Bool.false_eq_true, ↓reduceIte, steps]
  unfold probe
  rw [further]
  dsimp only
  rw [missing]
  split
  · exact .inl rfl
  · exact .inr rfl

end Walking

end Files

namespace Settings

/-! ## Searching outwards -/

section Searching

variable {files : Files} {place : Path}

/-- A search goes on outwards from a folder without settings. The names are given from the innermost
folder outwards. -/
theorem searchUp_append (sound : files.Sound) (names outer : List String)
    (bare : ∀ inner between, names = inner ++ between → between ≠ [] →
      files.get? (between ++ outer).reverse = some .folder ∧
        files.get? ((between ++ outer).reverse ++ [fileName]) = none) :
    searchUp files (names ++ outer) = searchUp files outer ∨
      searchUp files (names ++ outer) = .error .refused := by
  induction names with
  | nil => exact .inl rfl
  | cons name rest ih =>
    obtain ⟨isFolder, missing⟩ := bare [] (name :: rest) rfl (by simp)
    have further := ih fun inner between isRest filled =>
      bare (name :: inner) between (by rw [isRest]; rfl) filled
    rw [List.cons_append, searchUp]
    rcases sound.probe_missing isFolder (by decide) missing with refused | absent
    · right
      rw [List.cons_append] at refused
      rw [refused]
    · rw [List.cons_append] at absent
      rw [absent]
      exact further

theorem probe_of_governing (sound : files.Sound) {node : Files.Node} {settings : Settings}
    (stands : files.get? place = some node) (governs : governing files place = .ok settings) :
    files.probe place = .ok node := by
  have probed := sound.probe_eq stands
  by_cases tooFar : Path.lengthLimit < place.extent
  · simp [governing, find, probed, tooFar] at governs
  · simp [probed, tooFar]

/-- A file below a folder is governed by the settings of the folder if no settings stand on the way
down to it, as far as both can be looked up. -/
theorem governing_of_bare (sound : files.Sound) {rest : Path} {file : Files.File}
    {outer inner : Settings} (isFolder : files.get? place = some .folder)
    (isFile : files.get? (place ++ rest) = some (.file file))
    (bare : ∀ between, between ≠ [] → between <+: rest →
      files.get? (place ++ between ++ [fileName]) = none)
    (governsFolder : governing files place = .ok outer)
    (governsFile : governing files (place ++ rest) = .ok inner) :
    outer = inner := by
  have filled : rest ≠ [] := by
    intro empty
    rw [empty, List.append_nil, isFolder] at isFile
    simp at isFile
  obtain ⟨folders, last, rfl⟩ : ∃ folders last, rest = folders ++ [last] :=
    ⟨rest.dropLast, rest.getLast filled, (List.dropLast_concat_getLast filled).symm⟩
  have fromFolder : find files place = searchUp files place.reverse := by
    rw [find, probe_of_governing sound isFolder governsFolder]
  have fromFile : find files (place ++ (folders ++ [last])) =
      searchUp files (folders.reverse ++ place.reverse) := by
    rw [find, probe_of_governing sound isFile governsFile]
    simp
  have onwards := searchUp_append sound folders.reverse place.reverse (by
    intro nearer between isFolders above
    have isSplit : folders = between.reverse ++ nearer.reverse := by
      simpa using congrArg List.reverse isFolders
    have outwards : (between ++ place.reverse).reverse = place ++ between.reverse := by simp
    rw [outwards]
    constructor
    · have further : files.get? ((place ++ between.reverse) ++ (nearer.reverse ++ [last])) =
          some (.file file) := by simpa [isSplit] using isFile
      exact sound.folder_above (by simp) further
    · have onTheWay : between.reverse <+: folders ++ [last] :=
        ⟨nearer.reverse ++ [last], by simp [isSplit]⟩
      exact bare between.reverse (by simpa using above) onTheWay)
  unfold governing at governsFolder governsFile
  rw [fromFolder] at governsFolder
  rw [fromFile] at governsFile
  rcases onwards with same | refused
  · rw [same] at governsFile
    exact Except.ok.inj (governsFolder.symm.trans governsFile)
  · rw [refused] at governsFile
    simp at governsFile

end Searching

end Settings

end Parlance
