import Parlance.Command.Unit

/-!
Contract: places in a tree.

Putting a file at a place changes what stands there and at the other names of the file, and nothing
else; and a search lists every place with the ending it looks for, each of them once. Owns: these
facts.
-/

namespace Parlance

namespace Files

variable (files : Files)

theorem get?_put_self {path wanted : Path} (below : wanted ≠ [])
    (sameFile : files.home wanted = files.home path) (file : File) :
    (files.put path (.file file)).get? wanted = some (.file file) := by
  unfold home at sameFile
  cases wanted with
  | nil => contradiction
  | cons first rest =>
    cases isLink : files.links.lookup (first :: rest) with
    | none =>
      rw [isLink] at sameFile
      simp [get?, put, home, isLink, Keyed.lookup_put, ← sameFile]
    | some kept =>
      rw [isLink] at sameFile
      simp [get?, put, home, isLink, Keyed.lookup_put, ← sameFile, Node.isFile]

theorem get?_put_of_ne {path wanted : Path} (otherFile : files.home wanted ≠ files.home path)
    (node : Node) :
    (files.put path node).get? wanted = files.get? wanted := by
  unfold home at otherFile
  cases wanted with
  | nil => rfl
  | cons first rest =>
    cases isLink : files.links.lookup (first :: rest) with
    | none =>
      rw [isLink, Option.getD_none] at otherFile
      simp [get?, put, home, isLink, Keyed.lookup_put, otherFile]
    | some kept =>
      rw [isLink, Option.getD_some] at otherFile
      simp [get?, put, home, isLink, Keyed.lookup_put, otherFile]

theorem mem_paths_of_get? {files : Files} {path : Path} {node : Node}
    (stands : files.get? path = some node) (below : path ≠ []) :
    path ∈ files.paths := by
  have member : ∀ {β : Type} {rows : List (Path × β)}, (rows.lookup path).isSome = true →
      path ∈ rows.map Prod.fst := by
    intro β rows found
    obtain ⟨row, inRows, same⟩ := List.lookup_isSome_iff.mp found
    exact List.mem_map.mpr ⟨row, inRows, (beq_iff_eq.mp same).symm⟩
  unfold paths
  rw [List.mem_append, List.mem_filter]
  cases path with
  | nil => contradiction
  | cons first rest =>
    cases isLink : files.links.lookup (first :: rest) with
    | none =>
      simp only [get?, isLink] at stands
      exact .inl ⟨member (by simp [stands]), rfl⟩
    | some home => exact .inr (member (by simp [isLink]))

theorem nodup_paths : files.paths.Nodup := by
  refine List.nodup_append.mpr
    ⟨files.distinct.sublist List.filter_sublist, files.single, ?_⟩
  rintro path isKept link isLink rfl
  obtain ⟨row, member, rfl⟩ := List.mem_map.mp isLink
  have found : (files.links.lookup row.1).isSome = true :=
    List.lookup_isSome_iff.mpr ⟨row, member, beq_self_eq_true _⟩
  have missing := (List.mem_filter.mp isKept).2
  rw [Option.isNone_iff_eq_none] at missing
  simp [missing] at found

/-- Names below a folder, taken from the folder, are paths of the tree. -/
theorem map_below (folder : Path) :
    (files.below folder).map (folder ++ ·) =
      files.paths.filter fun path => folder.isPrefixOf path && path != folder := by
  unfold below
  rw [List.map_map]
  refine (List.map_congr_left ?_).trans (List.map_id _)
  intro path member
  have isPrefix : folder <+: path := by
    simp only [List.mem_filter, Bool.and_eq_true, List.isPrefixOf_iff_prefix] at member
    exact member.2.1
  obtain ⟨names, isPath⟩ := isPrefix
  simp [← isPath]

/-- A search lists everything below a folder that has a name with the ending. -/
theorem mem_withEnding {folder rest : Path} {node : Node} {ending name : String}
    (stands : files.get? (folder ++ rest) = some node) (isLast : rest.getLast? = some name)
    (ends : ending.toList <:+ name.toList) :
    rest ∈ files.withEnding folder ending := by
  have filled : rest ≠ [] := by
    intro empty
    simp [empty] at isLast
  have isKey : folder ++ rest ∈ (files.below folder).map (folder ++ ·) := by
    rw [map_below, List.mem_filter]
    exact ⟨mem_paths_of_get? stands (by simp [filled]), by simp [filled]⟩
  obtain ⟨same, member, isRest⟩ := List.mem_map.mp isKey
  obtain rfl := List.append_cancel_left isRest
  apply (List.mergeSort_perm _ _).mem_iff.mpr
  exact List.mem_filter.mpr ⟨member, by simpa [isLast] using ends⟩

theorem nodup_withEnding (folder : Path) (ending : String) :
    ((files.withEnding folder ending).map (folder ++ ·)).Nodup := by
  have distinctBelow : ((files.below folder).map (folder ++ ·)).Nodup := by
    rw [map_below]
    exact files.nodup_paths.sublist List.filter_sublist
  apply ((List.mergeSort_perm _ _).map (folder ++ ·)).nodup_iff.mpr
  exact distinctBelow.sublist (List.filter_sublist.map _)

theorem exists_of_readUnified {files : Files} {path : Path} {source : String}
    (read : files.readUnified path = .ok source) :
    ∃ text writable, files.get? path = some (.file ⟨.text text, writable⟩) ∧
      unified text = source := by
  unfold readUnified Files.read at read
  split at read
  case h_3 text writable stands => exact ⟨text, writable, stands, Except.ok.inj read⟩
  all_goals cases read

/-- A file that was read and is open for writing holds what is written to it. -/
theorem rewrite_of_read {files : Files} {path : Path} {source : String}
    (read : files.readUnified path = .ok source) (free : files.barrier? path = none)
    (text : String) :
    files.rewrite path text = .ok (files.put path (.file ⟨.text text, true⟩)) := by
  obtain ⟨old, writable, stands, -⟩ := exists_of_readUnified read
  cases writable with
  | false => simp [barrier?, stands] at free
  | true => simp only [rewrite, free, stands, File.rewritten]

end Files

open Command

/-- The source files that a path stands for have different names. -/
theorem Command.nodup_unitsAt {files : Files} {place : Path} {text : String}
    {units : List SourceUnit} (found : unitsAt files place text = .ok units) :
    (units.map SourceUnit.path).Nodup := by
  unfold unitsAt at found
  dsimp only at found
  split at found
  · split at found
    · cases found
    · obtain rfl := Except.ok.inj found
      rw [List.map_map]
      exact files.nodup_withEnding place sourceEnding
  · obtain rfl := Except.ok.inj found
    simp

end Parlance
