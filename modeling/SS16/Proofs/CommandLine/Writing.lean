import SS16.CommandLine.Directory
import SS16.Proofs.Results

/-!
# SS16.Proofs.CommandLine.Writing — a file that was written is read back

Writing changes one file, and no walk to a folder passes a file.  So the path that was written to
leads to this file afterwards.  Main statements: `Directory.foldlM_step_put` (walks to folders stay)
and `Directory.read_write`.
-/

namespace SS16.CommandLine.Directory

variable {d : Directory} {file here there : Path} {content : ByteArray}

/-! ### Walks to folders -/

theorem isFolder_put (h : d.isFolder here) : (d.put file content).isFolder here := by
  unfold isFolder at h ⊢
  unfold put
  split_ifs with hc
  · rw [List.any_eq_true] at h
    obtain ⟨f, hf, hpath⟩ := h
    refine List.any_eq_true.2 ⟨_, List.mem_map_of_mem hf, ?_⟩
    split_ifs with hfile
    · exact hfile ▸ hpath
    · exact hpath
  · rw [List.any_append, h]
    rfl

theorem step_outside {name : String} {node : Node} (h : d.step .outside name = .ok node) :
    node = .outside := by
  unfold step at h
  dsimp only at h
  split_ifs at h
  exact (Except.ok.inj h).symm

theorem foldlM_step_cons {node last : Node} {name : String} {names : Path} :
    (name :: names).foldlM d.step node = .ok last ↔
      ∃ next, d.step node name = .ok next ∧ names.foldlM d.step next = .ok last := by
  rw [List.foldlM_cons]
  exact Results.bind_eq_ok_iff

theorem exists_folder_of_foldlM {node : Node} {names : Path}
    (h : names.foldlM d.step node = .ok (.folder there)) : ∃ origin, node = .folder origin := by
  induction names generalizing node with
  | nil => exact ⟨there, Except.ok.inj h⟩
  | cons name names ih =>
    obtain ⟨next, hnext, hrest⟩ := foldlM_step_cons.1 h
    obtain ⟨p, rfl⟩ := ih hrest
    cases node with
    | folder origin => exact ⟨origin, rfl⟩
    | file path => cases hnext
    | outside => cases step_outside hnext

/-- A step from folder to folder stays when a file is put where no folder is. -/
theorem step_put {name : String} (hfile : d.isFolder file = false)
    (h : d.step (.folder here) name = .ok (.folder there)) :
    (d.put file content).step (.folder here) name = .ok (.folder there) := by
  unfold step at h ⊢
  dsimp only at h ⊢
  by_cases hdot : name = "."
  · rwa [if_pos hdot] at h ⊢
  by_cases hdots : name = ".."
  · rwa [if_neg hdot, if_pos hdots] at h ⊢
  by_cases hlong : Path.maxName < name.utf8ByteSize
  · rw [if_neg hdot, if_neg hdots, if_pos hlong] at h
    cases h
  rw [if_neg hdot, if_neg hdots, if_neg hlong] at h ⊢
  by_cases hcontent : (d.content? (here ++ [name])).isSome
  · rw [if_pos hcontent] at h
    cases h
  by_cases hfolder : d.isFolder (here ++ [name])
  · rw [if_neg hcontent, if_pos hfolder] at h
    have hne : here ++ [name] ≠ file := by
      rintro rfl
      simp [hfile] at hfolder
    rw [content?_put, if_neg hne, if_neg hcontent, if_pos (isFolder_put hfolder)]
    exact h
  · rw [if_neg hcontent, if_neg hfolder] at h
    cases h

theorem foldlM_step_put {node : Node} {names : Path} (hfile : d.isFolder file = false)
    (h : names.foldlM d.step node = .ok (.folder there)) :
    names.foldlM (d.put file content).step node = .ok (.folder there) := by
  induction names generalizing node with
  | nil => exact h
  | cons name names ih =>
    obtain ⟨origin, rfl⟩ := exists_folder_of_foldlM h
    obtain ⟨next, hnext, hrest⟩ := foldlM_step_cons.1 h
    obtain ⟨p, rfl⟩ := exists_folder_of_foldlM hrest
    exact foldlM_step_cons.2 ⟨_, step_put hfile hnext, ih hrest⟩

/-! ### Reading what was written -/

/-- A path that can be written to ends in the name of a file, which lies in the folder that the walk
before it leads to and is no folder itself. -/
theorem exists_of_destination {path : String} (h : d.destination path = .ok file) :
    ∃ init name parent, Path.ofString path = init ++ [name] ∧
      Path.endsInSlash path = false ∧ name ≠ "." ∧ name ≠ ".." ∧
      ¬ Path.maxName < name.utf8ByteSize ∧ d.walk path init = .ok (.folder parent) ∧
      file = parent ++ [name] ∧ d.isFolder file = false := by
  unfold destination at h
  split at h
  · obtain ⟨node, -, hnode⟩ := Results.bind_eq_ok_iff.1 h
    cases hnode
  · rename_i name hlast
    obtain ⟨init, hinit⟩ := List.getLast?_eq_some_iff.1 hlast
    rw [hinit, List.dropLast_concat] at h
    obtain ⟨node, hwalk, hnode⟩ := Results.bind_eq_ok_iff.1 h
    cases node with
    | file here => cases hnode
    | outside =>
      unfold fileAt at hnode
      dsimp only at hnode
      split_ifs at hnode
    | folder parent =>
      unfold fileAt at hnode
      dsimp only at hnode
      split_ifs at hnode with hflag hlong hfolder
      simp only [Bool.or_eq_true, decide_eq_true_eq, not_or, Bool.not_eq_true] at hflag
      obtain rfl := Except.ok.inj hnode
      exact ⟨init, name, parent, hinit, hflag.1.1, hflag.1.2, hflag.2, hlong, hwalk, rfl,
        by simpa using hfolder⟩

theorem walk_eq_ok_iff {path : String} {names : Path} {node : Node} :
    d.walk path names = .ok node ↔
      path ≠ "" ∧ ¬ Path.maxPath < path.utf8ByteSize ∧
        names.foldlM d.step (origin path) = .ok node := by
  unfold walk
  split_ifs with hempty hlong
  · simp [hempty]
  · simp [hlong]
  · simp [hempty, hlong]

theorem read_write {path : String} {d' : Directory} (h : d.write path content = .ok d') :
    d'.read path = .ok content := by
  obtain ⟨file, hfile, rfl⟩ := Results.map_eq_ok_iff.1 h
  obtain ⟨init, name, parent, hpath, hslash, hdot, hdots, hlong, hwalk, rfl, hfolder⟩ :=
    exists_of_destination hfile
  obtain ⟨hempty, hshort, hsteps⟩ := walk_eq_ok_iff.1 hwalk
  have hcontent : (d.put (parent ++ [name]) content).content? (parent ++ [name]) = some content := by
    rw [content?_put, if_pos rfl]
  -- the walk comes to the same folder as before, and the last step to the file
  have hstep : (d.put (parent ++ [name]) content).step (.folder parent) name =
      .ok (.file (parent ++ [name])) := by
    unfold step
    dsimp only
    rw [if_neg hdot, if_neg hdots, if_neg hlong, hcontent]
    rfl
  have hlast : (init ++ [name]).foldlM (d.put (parent ++ [name]) content).step (origin path) =
      .ok (.file (parent ++ [name])) := by
    rw [List.foldlM_append, foldlM_step_put hfolder hsteps]
    exact foldlM_step_cons.2 ⟨_, hstep, rfl⟩
  unfold read
  rw [hslash, hpath, if_neg Bool.false_ne_true]
  dsimp only
  rw [List.append_nil, walk_eq_ok_iff.2 ⟨hempty, hshort, hlast⟩]
  unfold Except.bind contentAt
  dsimp only
  rw [hcontent]
  rfl

end SS16.CommandLine.Directory
