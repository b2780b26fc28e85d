import Mathlib.Data.List.Basic
import Whitespace.CommandLine.FileSystem

/-!
# Files

A tree of files is a lawful file system.  Creating a file makes no way through the
directories and closes none, so every path that led somewhere before leads there
afterwards (`toOption_locate_insert`).  All else is a look-up of the one place that was
written (`lookup_insert`).
-/

namespace Whitespace.CommandLine.FileTree

variable {t : FileTree} {place : List String} (content : List UInt8)

theorem lookup_insert (h : t.lookup place ≠ some .directory) (other : List String) :
    (t.insert place content).lookup other =
      if other = place then some (.opened (.file content)) else t.lookup other := by
  have hentries : (t.insert place content).entries =
      (place, .opened (.file content)) :: t.entries := rfl
  have hlocation : (t.insert place content).location = t.location := rfl
  unfold lookup at h ⊢
  rw [hentries, hlocation, List.lookup_cons]
  by_cases hother : other = place
  · subst hother
    have hsuffix : ¬ other.isSuffixOf t.location := fun hsuffix => h (if_pos hsuffix)
    simp [hsuffix]
  · have hne : (other == place) = false := beq_false_of_ne hother
    rw [hne, if_neg hother]

/-- The way of a path goes on or ends where it did before. -/
theorem toOption_follow_insert (h : t.lookup place ≠ some .directory) (start : List String)
    (parts : List String) :
    ((t.insert place content).follow start parts).toOption = (t.follow start parts).toOption := by
  induction parts generalizing start with
  | nil => rfl
  | cons part rest ih =>
    rw [follow, follow]
    split_ifs with hdot hdots hlast hlong
    · exact ih start
    · exact ih start.tail
    · rfl
    · rfl
    · rw [lookup_insert content h]
      by_cases hplace : part :: start = place
      · -- the path is blocked by the file, and was by what is no directory
        subst hplace
        rw [if_pos rfl]
        rcases hentry : t.lookup (part :: start) with _ | _ | _
        · rfl
        · exact absurd hentry h
        · rfl
      · rw [if_neg hplace]
        split
        · exact ih (part :: start)
        all_goals rfl

theorem toOption_locate_insert (h : t.lookup place ≠ some .directory) (path : String) :
    ((t.insert place content).locate path).toOption = (t.locate path).toOption := by
  unfold locate
  split_ifs
  · rfl
  · rfl
  · split
    all_goals exact toOption_follow_insert content h _ _

theorem locate_insert (h : t.lookup place ≠ some .directory) {path : String}
    {destination : Destination} (hpath : t.locate path = .ok destination) :
    (t.insert place content).locate path = .ok destination := by
  have hoption := toOption_locate_insert content h path
  rw [hpath] at hoption
  cases hlocate : (t.insert place content).locate path with
  | error e => rw [hlocate] at hoption; cases hoption
  | ok destination' =>
    rw [hlocate] at hoption
    exact congrArg Except.ok (Option.some.inj hoption)

/-! ## Reading what was written -/

theorem toOption_bind {ε α β : Type} (x : Except ε α) (f : α → Except ε β) :
    (x >>= f).toOption = x.toOption.bind fun a => (f a).toOption := by
  cases x <;> rfl

/-- A file can be under a name in the directory of a place. -/
structure Admits (t : FileTree) (place : List String) (text : String) : Prop where
  short : text.utf8ByteSize ≤ nameLimit
  ne_directory : t.lookup (text :: place) ≠ some .directory

/-- A destination at which a file can be created is a name that admits one. -/
theorem createAt_eq_file {destination : Destination}
    {write : List UInt8 → Except FileError Unit × FileTree}
    (h : t.createAt destination = .ok (.file write)) :
    ∃ place text, destination = .name place text false ∧ t.Admits place text ∧
      write = fun content => (.ok (), t.insert (text :: place) content) := by
  unfold createAt at h
  split at h
  · cases h
  · cases h
  · next place text =>
    split_ifs at h with hlong
    split at h
    · cases h
    · cases h
    · next hdirectory _ =>
      cases h
      exact ⟨place, text, rfl, ⟨Nat.le_of_not_lt hlong, hdirectory⟩, rfl⟩

variable {text : String}

theorem readAt_insert_self (h : t.Admits place text) :
    (t.insert (text :: place) content).readAt (.name place text false) = .ok (.file content) := by
  rw [readAt, if_neg (Nat.not_lt.2 h.short), lookup_insert content h.ne_directory, if_pos rfl]
  rfl

theorem toOption_readAt_insert (h : t.Admits place text) {destination : Destination}
    (hne : destination ≠ .name place text false) :
    ((t.insert (text :: place) content).readAt destination).toOption =
      (t.readAt destination).toOption := by
  rcases destination with _ | ⟨place', text', directory⟩
  · rfl
  · rw [readAt, readAt]
    by_cases hlong : nameLimit < text'.utf8ByteSize
    · rw [if_pos hlong, if_pos hlong]
    · rw [if_neg hlong, if_neg hlong, lookup_insert content h.ne_directory]
      by_cases hplace : text' :: place' = text :: place
      · -- only a path that asks for a directory can lead there as well
        obtain ⟨rfl, rfl⟩ := List.cons.inj hplace
        obtain rfl : directory = true := by simpa using hne
        rw [if_pos rfl]
        rcases hentry : t.lookup (text' :: place') with _ | _ | _
        · rfl
        · exact absurd hentry h.ne_directory
        · rfl
      · rw [if_neg hplace]

/-- Where a path leads to a file that is created, and what is created there. -/
theorem create_eq_file {path : String} {write : List UInt8 → Except FileError Unit × FileTree}
    (h : FileSystem.create t path = .ok (.file write)) :
    ∃ place text, t.locate path = .ok (.name place text false) ∧ t.Admits place text ∧
      write = fun content => (.ok (), t.insert (text :: place) content) := by
  have hcreate : (t.locate path >>= t.createAt) = .ok (.file write) := h
  cases hlocate : t.locate path with
  | error e =>
    rw [hlocate] at hcreate
    cases hcreate
  | ok destination =>
    rw [hlocate] at hcreate
    obtain ⟨place, text, rfl, hrest⟩ := createAt_eq_file hcreate
    exact ⟨place, text, rfl, hrest⟩

instance : LawfulFileSystem FileTree where
  sameFile_refl _ _ := rfl
  read_of_sameFile := by
    intro t after path other content write created written same
    obtain ⟨place, text, hpath, h, rfl⟩ := create_eq_file created
    cases written
    have hother : t.locate other = .ok (.name place text false) := same.symm.trans hpath
    show (_ >>= FileTree.readAt _) = _
    rw [locate_insert content h.ne_directory hother]
    exact readAt_insert_self content h
  read_of_not_sameFile := by
    intro t path other write created differ content
    obtain ⟨place, text, hpath, h, rfl⟩ := create_eq_file created
    show (_ >>= FileTree.readAt _).toOption = (_ >>= FileTree.readAt _).toOption
    rw [toOption_bind, toOption_bind, toOption_locate_insert content h.ne_directory]
    cases hother : t.locate other with
    | error e => rfl
    | ok destination =>
      have hne : destination ≠ .name place text false := by
        rintro rfl
        exact differ (hpath.trans hother.symm)
      exact toOption_readAt_insert content h hne

end Whitespace.CommandLine.FileTree
