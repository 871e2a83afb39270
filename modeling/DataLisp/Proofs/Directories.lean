/-
Directories give back what was written to them.

A path is followed from the root through folders, and writing a file makes no folder and takes
none away. So after writing, every path still leads where it led (`follow_congr`), and the one
that was written to leads to the new file (`readText?_writeText?`). A run of a program on a
directory is then one reading, one conversion and one writing (`run_of_converted`).
-/
import DataLisp.Command.Directory
import DataLisp.Proofs.Spelling

set_option autoImplicit false

namespace DataLisp.Command.Directory

/-! ## Places -/

/-- Replacing what is at a place leaves all other places alone. -/
theorem lookup_replaced (places : List (List String × Node)) (place other : List String)
    (node : Node) :
    (places.map fun entry => if entry.1 = place then (place, node) else entry).lookup other =
      if other = place then (places.lookup other).map fun _ => node else places.lookup other := by
  induction places with
  | nil => simp
  | cons entry rest ih =>
    obtain ⟨p, old⟩ := entry
    rw [List.map_cons]
    by_cases hp : p = place
    · subst hp
      by_cases hother : other = p
      · subst hother
        simp
      · simp [List.lookup_cons, beq_eq_false_iff_ne.mpr hother, ih, hother]
    · rw [if_neg hp, List.lookup_cons, List.lookup_cons, ih]
      by_cases hother : other = p
      · subst hother
        simp [hp]
      · simp [beq_eq_false_iff_ne.mpr hother]

theorem any_place (places : List (List String × Node)) (place : List String) :
    (places.any fun entry => entry.1 = place) = (places.lookup place).isSome := by
  induction places with
  | nil => rfl
  | cons entry rest ih =>
    obtain ⟨p, node⟩ := entry
    rw [List.any_cons, List.lookup_cons, ih]
    by_cases hp : place = p
    · subst hp
      simp
    · simp [beq_eq_false_iff_ne.mpr hp, Ne.symm hp]

/-- **What is put at a place is found there**, and at every other place what was found before. -/
theorem get?_put (d : Directory) {place : List String} (hplace : place ≠ []) (node : Node)
    (other : List String) :
    (d.put place node).get? other = if other = place then some node else d.get? other := by
  by_cases hroot : other.isEmpty = true
  · -- the root is always there and never put
    rw [get?, get?, if_pos hroot, if_pos hroot, if_neg]
    rintro rfl
    exact hplace (List.isEmpty_iff.mp hroot)
  · rw [get?, get?, if_neg hroot, if_neg hroot, put, any_place]
    split
    · -- something is at the place: it is replaced where it stands in the list
      rename_i hthere
      rw [lookup_replaced]
      split
      · rename_i hother
        subst hother
        obtain ⟨old, hold⟩ := Option.isSome_iff_exists.mp hthere
        rw [hold, Option.map_some]
      · rfl
    · -- nothing is there: the place comes last, behind all that is found before
      rename_i hfree
      rw [List.lookup_append]
      split
      · rename_i hother
        subst hother
        rw [Option.not_isSome_iff_eq_none.mp hfree]
        simp
      · rename_i hother
        simp [List.lookup_cons, beq_eq_false_iff_ne.mpr hother]

/-! ## Paths -/

/-- A path leads where it leads by the folders that are there. -/
theorem follow_congr {d d' : Directory}
    (h : ∀ place, d'.get? place = some .folder ↔ d.get? place = some .folder)
    (steps place : List String) : d'.follow place steps = d.follow place steps := by
  induction steps generalizing place with
  | nil => rfl
  | cons step rest ih =>
    rw [follow.eq_def, follow.eq_def]
    dsimp only
    simp only [ne_eq, h, ih]

/-- A text is written to the place that its path leads to, which is no folder. -/
theorem writeText?_eq_some {d d' : Directory} {path text : String}
    (h : d.writeText? path text = some d') :
    ∃ place, d.resolve path = some ⟨place, false⟩ ∧ d.get? place ≠ some .folder ∧
      d' = d.put place (.file (Text.Utf8.encode text.toList)) := by
  simp only [writeText?, Option.bind_eq_bind, Option.bind_eq_some_iff] at h
  obtain ⟨⟨place, isFolder⟩, hresolve, hput⟩ := h
  cases isFolder with
  | true => cases hput
  | false =>
    refine ⟨place, hresolve, ?_⟩
    cases hnode : d.get? place with
    | none =>
      rw [hnode] at hput
      exact ⟨by simp, (Option.some.inj hput).symm⟩
    | some node =>
      rw [hnode] at hput
      cases node with
      | folder => cases hput
      | file bytes => exact ⟨by simp, (Option.some.inj hput).symm⟩

/-- **A file that has been written is read back**: writing changes no folder, so the path still
leads to the place of the file. -/
theorem readText?_writeText? {d d' : Directory} {path text : String}
    (h : d.writeText? path text = some d') : d'.readText? path = some text := by
  obtain ⟨place, hresolve, hfile, rfl⟩ := writeText?_eq_some h
  -- the place is not the root, as that is a folder
  have hplace : place ≠ [] := by
    rintro rfl
    exact hfile rfl
  have hput := get?_put d hplace (.file (Text.Utf8.encode text.toList))
  -- no folder is lost either: there was none at the place
  have hfolders : ∀ p, (d.put place (.file (Text.Utf8.encode text.toList))).get? p =
      some .folder ↔ d.get? p = some .folder := by
    intro p
    rw [hput]
    split
    · rename_i hp
      subst hp
      simp [hfile]
    · exact Iff.rfl
  have hsame : (d.put place (.file (Text.Utf8.encode text.toList))).resolve path =
      some ⟨place, false⟩ := by
    rw [← hresolve, resolve, resolve]
    simp only [follow_congr hfolders]
  rw [readText?, readBytes?, hsame, Option.bind_eq_bind, Option.bind_eq_bind, Option.bind_some]
  dsimp only
  rw [hput, if_pos rfl]
  simp [Text.Utf8.decode?_encode]

/-! ## Runs -/

/-- What a program does to a directory if it can read its input, convert it and write the
result. -/
theorem run_of_converted {d d' : Directory} {program : Program} {o : Options}
    {text written : String} {groups : Nat} (hread : d.readText? o.input = some text)
    (hconvert : (convert program o text).value.result = .ok (written, groups))
    (hwrite : d.writeText? o.output written = some d') :
    (d.run program o).1.exitCode = 0 ∧ (d.run program o).2 = d' := by
  have hrun : d.run program o = (Outcome.filtered ⟨none, (⟨.debug, "reading input",
      [("path", o.input)]⟩ :: (convert program o text).notes) ++ [convertedEvent o groups],
      (convert program o text).value.printed⟩ o.threshold, d') := by
    simp [run, Command.run, runLogged, storage, hread, hconvert, hwrite]
    rfl
  rw [hrun]
  exact ⟨rfl, rfl⟩

/-- The paths that are a single step of one letter lead there. -/
theorem resolve_letter (d : Directory) : ∀ path ∈ ["i", "m", "o"],
    d.resolve path = some ⟨[path], false⟩ := by
  -- `splitOn` does not evaluate, so its two steps on one letter are written out
  have hsplit : ∀ path ∈ ["i", "m", "o"],
      isPath path = true ∧ path.splitOn "/" = [path] ∧
        ¬(maxStepBytes < path.utf8ByteSize) ∧ (path.isEmpty || path = ".") = false ∧
        path ≠ ".." := by
    simp only [List.forall_mem_cons]
    refine ⟨⟨by decide, ?_, by decide, by decide, by decide⟩,
      ⟨by decide, ?_, by decide, by decide, by decide⟩,
      ⟨by decide, ?_, by decide, by decide, by decide⟩, by simp⟩ <;>
    · rw [String.splitOn, if_neg (by decide), String.splitOnAux, if_neg (by decide),
        if_neg (by decide), String.splitOnAux, if_pos (by decide)]
      decide
  intro path hpath
  obtain ⟨hvalid, hsteps, hshort, hdot, hdots⟩ := hsplit path hpath
  have hroot : d.get? [] = some .folder := rfl
  rw [resolve, if_pos hvalid, hsteps, follow.eq_def]
  dsimp only
  rw [hroot, if_neg (by simpa using hshort), if_neg (by simp [hdot]), if_neg hdots]
  rfl

/-- Where nothing is, such a path can be written to, and nothing is put anywhere else. -/
theorem writeText?_letter (d : Directory) (path : String) (hpath : path ∈ ["i", "m", "o"])
    (hfree : d.get? [path] = none) (text : String) :
    ∃ d', d.writeText? path text = some d' ∧
      ∀ other, other ≠ path → d'.get? [other] = d.get? [other] := by
  refine ⟨d.put [path] (.file (Text.Utf8.encode text.toList)), ?_, ?_⟩
  · rw [writeText?, resolve_letter d path hpath, Option.bind_eq_bind, Option.bind_some]
    dsimp only
    rw [hfree]
  · intro other hother
    rw [get?_put d (by simp), if_neg (by simpa using hother)]

end DataLisp.Command.Directory
