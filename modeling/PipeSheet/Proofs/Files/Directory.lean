import PipeSheet.Files.Directory
/-!
# PipeSheet.Proofs.Files.Directory

**A file that was written is read back under the same path.**

A path leads to the same place before and after a file is put there: on the way are only folders,
and the place is none of them (`Directory.findFrom_put`).

* `Target.IsPlace`: where a path asks for a file;
* `Directory.read_of_write`: the law.
-/

namespace PipeSheet

/-- The target is a place for a file: there is one, or nothing is there yet. -/
def Target.IsPlace (path : List String) : Target → Prop
  | .file p _ | .absent p => p = path
  | .folder => False

namespace Directory

variable {d d' : Directory} {path here names : List String} {target : Target} {bytes : List UInt8}

theorem lookup?_put_of_ne (h : here ≠ path) (bytes : List UInt8) :
    (d.put path bytes).lookup? here = d.lookup? here := by
  have hentries : ∀ entries : List (List String × Entry),
      (entries.filter fun entry => entry.1 ≠ path).lookup here = entries.lookup here := by
    intro entries
    induction entries with
    | nil => rfl
    | cons entry rest ih =>
        obtain ⟨p, e⟩ := entry
        by_cases hp : p = path
        · have hne : (here == p) = false := beq_eq_false_iff_ne.2 (hp ▸ h)
          rw [List.filter_cons_of_neg (by simpa using hp), ih, List.lookup_cons, hne]
        · rw [List.filter_cons_of_pos (by simpa using hp), List.lookup_cons, List.lookup_cons, ih]
  have hne : (here == path) = false := beq_eq_false_iff_ne.2 h
  unfold lookup? put
  rw [List.lookup_cons, hne]
  dsimp only
  rw [hentries]

/-- Where a path asks for a file there is no folder. -/
theorem lookup?_ne_folder (h : d.findFrom here names = .ok target) (htarget : target.IsPlace path) :
    path ≠ [] ∧ d.lookup? path ≠ some .folder := by
  fun_induction findFrom d here names with
  | case1 here => cases h; exact htarget.elim
  | case2 here name rest hstay ih => exact ih h
  | case3 rest hstay =>
      unfold findOutside at h
      split at h
      · cases h; exact htarget.elim
      · cases h
  | case4 here rest hstay hhere ih => exact ih h
  | case5 here name rest _ _ hfolder ih => exact ih h
  | case6 here name hstay hup old hfile =>
      cases h
      obtain rfl : here ++ [name] = path := htarget
      exact ⟨by simp, by simp [hfile]⟩
  | case7 => cases h
  | case8 here name hstay hup hnone =>
      cases h
      obtain rfl : here ++ [name] = path := htarget
      exact ⟨by simp, by simp [hnone]⟩
  | case9 => cases h

/-- A path that asks for a file leads to the file that is put there. -/
theorem findFrom_put (h : d.findFrom here names = .ok target) (htarget : target.IsPlace path)
    (bytes : List UInt8) :
    (d.put path bytes).findFrom here names = .ok (.file path bytes) := by
  obtain ⟨hne, hplace⟩ := lookup?_ne_folder h htarget
  fun_induction findFrom d here names with
  | case1 here => cases h; exact htarget.elim
  | case2 here name rest hstay ih =>
      rw [findFrom, if_pos hstay]
      exact ih h
  | case3 rest hstay =>
      unfold findOutside at h
      split at h
      · cases h; exact htarget.elim
      · cases h
  | case4 here rest hstay hhere ih =>
      rw [findFrom, if_neg hstay, if_pos rfl, if_neg hhere]
      exact ih h
  | case5 here name rest hstay hup hfolder ih =>
      have hother : here ++ [name] ≠ path := by
        rintro rfl
        exact hplace hfolder
      rw [findFrom, if_neg hstay, if_neg hup, lookup?_put_of_ne hother, hfolder]
      exact ih h
  | case6 here name hstay hup old hfile =>
      cases h
      obtain rfl : here ++ [name] = path := htarget
      rw [findFrom, if_neg hstay, if_neg hup, lookup?_put_self hne]
      rfl
  | case7 => cases h
  | case8 here name hstay hup hnone =>
      cases h
      obtain rfl : here ++ [name] = path := htarget
      rw [findFrom, if_neg hstay, if_neg hup, lookup?_put_self hne]
      rfl
  | case9 => cases h

theorem find_put (h : d.find names = .ok target) (htarget : target.IsPlace path)
    (bytes : List UInt8) : (d.put path bytes).find names = .ok (.file path bytes) := by
  unfold find at h ⊢
  split at h
  · cases h
  · unfold findOutside at h
    split at h
    · cases h; exact htarget.elim
    · cases h
  · next names' hempty hslash =>
    rw [← findFrom_put h htarget bytes]

/-- A file that was written is read back. -/
theorem read_of_write {p : String} (h : d.write p bytes = .ok d') : d'.read p = .ok bytes := by
  unfold write at h
  dsimp only at h
  split at h
  · split at h <;> cases h
  · split at h
    · next path old hfind =>
      cases h
      rw [read, find_put hfind rfl]
    · next path hfind =>
      cases h
      rw [read, find_put hfind rfl]
    · cases h
    · cases h

end Directory

end PipeSheet
