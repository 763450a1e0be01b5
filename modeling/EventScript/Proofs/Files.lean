import EventScript.Cli.FileTree

/-!
Files that are put into a tree. A file goes where no directory is, so it neither cuts a way through
directories off nor opens one, and every path leads where it led before. What is written to a path
is what reading that path gives afterwards.

        maps/town.bin    maps/   town.bin          written to: the last part names the file
        maps//town.bin   maps/   ""   town.bin     empty parts lead nowhere
        maps/town/       maps/   town   ""         no file: the path ends with a slash
-/

namespace EventScript.Cli

/-! ### Parts of a path -/

namespace FileTree

variable {files : FileTree} {place location next : Location} {path part : String}

/-! ### Putting a file -/

theorem find?_set_of_ne (hplace : files.find? place ≠ some .directory) (entry : Entry)
    (h : location ≠ place) : (files.set place entry).find? location = files.find? location := by
  have hroot : place ≠ [] := by
    rintro rfl
    exact hplace rfl
  rw [find?_set files hroot, if_neg h]

theorem find?_set_self (hplace : files.find? place ≠ some .directory) (entry : Entry) :
    (files.set place entry).find? place = some entry := by
  have hroot : place ≠ [] := by
    rintro rfl
    exact hplace rfl
  rw [find?_set files hroot, if_pos rfl]

theorem checkDirectory_eq_ok_iff :
    files.checkDirectory location = .ok () ↔ files.find? location = some .directory := by
  unfold checkDirectory
  split <;> simp [*]

/-- Putting a file where no directory is makes and removes no directory. -/
theorem find?_set_eq_directory_iff (hplace : files.find? place ≠ some .directory)
    (contents : ByteArray) :
    (files.set place (.file contents)).find? location = some .directory ↔
      files.find? location = some .directory := by
  by_cases h : location = place
  · subst h
    rw [find?_set_self hplace]
    simp [hplace]
  · rw [find?_set_of_ne hplace _ h]

theorem follow_set (hplace : files.find? place ≠ some .directory) (contents : ByteArray) :
    (files.set place (.file contents)).follow location part = .ok next ↔
      files.follow location part = .ok next := by
  have hcheck : (files.set place (.file contents)).checkDirectory location = .ok () ↔
      files.checkDirectory location = .ok () := by
    rw [checkDirectory_eq_ok_iff, checkDirectory_eq_ok_iff,
      find?_set_eq_directory_iff hplace contents]
  unfold follow
  cases hafter : (files.set place (.file contents)).checkDirectory location with
  | ok _ => rw [hcheck.mp hafter]
  | error e =>
    cases hbefore : files.checkDirectory location with
    | ok _ => simp [hcheck.mpr hbefore] at hafter
    | error e' => simp

/-- A way through the tree leads where it led before. -/
theorem walk_set (hplace : files.find? place ≠ some .directory) (contents : ByteArray)
    {parts : List String} :
    (files.set place (.file contents)).walk location parts = .ok next ↔
      files.walk location parts = .ok next := by
  induction parts generalizing location with
  | nil => rfl
  | cons part rest ih =>
    rw [walk, walk]
    cases hfollow : files.follow location part with
    | ok there => simp only [(follow_set hplace contents).mpr hfollow, ih]
    | error e =>
      cases hafter : (files.set place (.file contents)).follow location part with
      | ok there => simp [(follow_set hplace contents).mp hafter] at hfollow
      | error e' => simp

/-! ### Where a path is written to -/

/-- A path can be written to when its last part names a file in a directory that it leads to. -/
theorem target_eq_ok_iff :
    files.target path = .ok location ↔
      checkPath path = .ok () ∧ ∃ parent last,
        files.walk (files.origin path) ((Path.parts path).filter (· ≠ "")).dropLast = .ok parent ∧
        ((Path.parts path).filter (· ≠ "")).getLast? = some last ∧
        path.toList.getLast? ≠ some '/' ∧ last ≠ "." ∧ last ≠ ".." ∧
        files.follow parent last = .ok location ∧ files.find? location ≠ some .directory := by
  unfold target
  constructor
  · intro h
    split at h
    · cases h
    · next hcheck =>
      dsimp only at h
      split at h
      · cases h
      · next parent hwalk =>
        split at h
        · cases h
        · split at h
          · cases h
          · next last hlast =>
            split at h
            · cases h
            · next hplain =>
              simp only [Bool.or_eq_true, decide_eq_true_eq, not_or] at hplain
              split at h
              · cases h
              · next there hfollow =>
                split at h
                · cases h
                · next hfile =>
                  obtain rfl := Except.ok.inj h
                  exact ⟨hcheck, parent, last, hwalk, hlast, hplain.1.1, hplain.1.2, hplain.2,
                    hfollow, hfile⟩
  · rintro ⟨hcheck, parent, last, hwalk, hlast, hslash, hdot, hup, hfollow, hfile⟩
    have hdirectory : files.checkDirectory parent = .ok () := by
      unfold follow at hfollow
      split at hfollow
      · cases hfollow
      · assumption
    simp only [hcheck, hwalk, hdirectory, hlast, hslash, hdot, hup, decide_false, Bool.or_self,
      hfollow]
    cases hfind : files.find? location with
    | none => rfl
    | some entry =>
      cases entry with
      | file contents => rfl
      | directory => exact absurd hfind hfile

theorem find?_ne_directory (h : files.target path = .ok location) :
    files.find? location ≠ some .directory := by
  obtain ⟨-, -, -, -, -, -, -, -, -, hfile⟩ := target_eq_ok_iff.mp h
  exact hfile

/-- A path is written to where it was written to before. -/
theorem target_set (hplace : files.find? place ≠ some .directory) (contents : ByteArray) :
    (files.set place (.file contents)).target path = .ok location ↔
      files.target path = .ok location := by
  have horigin : (files.set place (.file contents)).origin path = files.origin path := rfl
  rw [target_eq_ok_iff, target_eq_ok_iff, horigin]
  simp only [walk_set hplace contents, follow_set hplace contents, ne_eq,
    find?_set_eq_directory_iff hplace contents]

/-! ### Reading what was written -/

end FileTree

end EventScript.Cli
