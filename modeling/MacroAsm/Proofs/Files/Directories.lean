import MacroAsm.Proofs.Files.Names
import MacroAsm.Proofs.Lists

set_option autoImplicit false

/-! # Directories of files

What is searched from the directory of a file is searched from that directory as the path of the file
spells it. How it is spelled makes no difference to what is found (`FileTree.fileLocation?_join`): all
spellings go through the same directory, unless one of them makes a path longer than it may be. -/

namespace MacroAsm

namespace Path

/-! ## The directory of a path -/

theorem dropFillers_ne_nil {ns : List (List Char)} (h : ns ≠ []) : dropFillers ns ≠ [] := by
  fun_induction dropFillers ns with
  | case1 => exact absurd rfl h
  | case2 => simp
  | case3 n rest _ _ ih => exact ih (by assumption)
  | case4 => simp

theorem getLast?_dropFillers (ns : List (List Char)) :
    (dropFillers ns).getLast? = ns.getLast? := by
  fun_induction dropFillers ns with
  | case1 => rfl
  | case2 => rfl
  | case3 n rest hrest hn ih =>
    rw [ih]
    cases rest with
    | nil => exact absurd rfl hrest
    | cons m rest => simp
  | case4 => rfl

theorem mem_of_mem_dropFillers {ns : List (List Char)} {n : List Char} (h : n ∈ dropFillers ns) :
    n ∈ ns := by
  fun_induction dropFillers ns with
  | case1 => exact h
  | case2 => exact h
  | case3 m rest _ _ ih => exact List.mem_cons_of_mem m (ih h)
  | case4 => exact h

/-- What is left is one name, or its last name is no filler. -/
theorem dropFillers_cases (ns : List (List Char)) :
    (∃ n, dropFillers ns = [n]) ∨ dropFillers ns = [] ∨
      ∃ n rest, dropFillers ns = n :: rest ∧ isFiller n = false := by
  fun_induction dropFillers ns with
  | case1 => exact .inr (.inl rfl)
  | case2 n => exact .inl ⟨n, rfl⟩
  | case3 n rest _ _ ih => exact ih
  | case4 n rest _ hn => exact .inr (.inr ⟨n, rest, rfl, by simpa using hn⟩)

theorem exists_chainOf {ns : List (List Char)} (h : ns ≠ []) :
    ∃ outer, chainOf ns = ofNames (dropFillers ns) :: outer := by
  fun_induction dropFillers ns with
  | case1 => exact absurd rfl h
  | case2 n => exact ⟨[], rfl⟩
  | case3 n rest hrest hn ih =>
    obtain ⟨outer, houter⟩ := ih hrest
    exact ⟨outer, by rw [chainOf, if_pos hn, houter]; exact hrest⟩
  | case4 n rest hrest hn => exact ⟨chainOf rest, by rw [chainOf, if_neg hn]; exact hrest⟩

/-- The directory of a file: all its names but the last, without fillers behind them. -/
theorem parent?_eq {path : String} {n : List Char} {rest : List (List Char)}
    (hnames : names path = n :: rest) (hn : isFiller n = false) :
    parent? path = some (if rest = [] then "" else ofNames (dropFillers rest)) := by
  have hpath : path ≠ "" := by
    rintro rfl
    obtain rfl : n = [] := by simpa [names] using (congrArg List.head? hnames).symm
    simp [isFiller] at hn
  unfold parent? chain
  rw [if_neg hpath, hnames]
  cases rest with
  | nil =>
    have hslash : '/' ∉ n := slash_notMem_of_mem_names (hnames ▸ List.mem_cons_self)
    have hne : ofNames [n] ≠ "/" := by
      intro h
      have hself : names (ofNames [n]) = [n] :=
        names_ofNames (ne_nil_of_isFiller hn) (by simpa using hslash)
      have hroot : (names "/").length = 2 := by decide
      rw [h] at hself
      simp [hself] at hroot
    simp [chainOf, hne]
  | cons m rest =>
    obtain ⟨outer, houter⟩ := exists_chainOf (List.cons_ne_nil m rest)
    simp [chainOf, hn, houter]

/-! ## Joining -/

theorem names_append_slash (a b : String) : names (a ++ "/" ++ b) = names b ++ names a := by
  have hsplit : (a.toList ++ '/' :: b.toList).splitOn '/' =
      a.toList.splitOn '/' ++ b.toList.splitOn '/' :=
    List.splitOn_append_cons_self _ _
  simp [names, hsplit]

/-- A path that ends in a name does not end in a slash. -/
theorem getLast?_ofNames {n : List Char} (hn : n ≠ []) (rest : List (List Char)) :
    (ofNames (n :: rest)).toList.getLast? = n.getLast? := by
  have hof : (ofNames (n :: rest)).toList = List.intercalate ['/'] (rest.reverse ++ [n]) := by
    unfold ofNames
    split
    · next heq => exact absurd (List.cons.inj heq).1 hn
    · simp
  rw [hof]
  induction rest.reverse with
  | nil => simp
  | cons first more ih =>
    obtain ⟨m, ms, hms⟩ := List.exists_cons_of_ne_nil (l := more ++ [n]) (by simp)
    rw [hms] at ih
    rw [List.cons_append, hms, List.intercalate_cons_cons, List.append_assoc, List.getLast?_append,
      List.singleton_append, List.getLast?_cons, ih]
    cases hlast : n.getLast? with
    | none => exact absurd (List.getLast?_eq_none_iff.1 hlast) hn
    | some c => simp

/-- The names that a directory of a file can have: one that is a filler, or such that the last one is
    none. -/
structure IsDirectory (ds : List (List Char)) : Prop where
  last : (∃ n, ds = [n]) ∨ ∃ n rest, ds = n :: rest ∧ isFiller n = false
  slash : ∀ n ∈ ds, '/' ∉ n

/-- A path seen from a directory has the names of both. -/
theorem names_join {ds : List (List Char)} {x : String} (hx : isAbsolute x = false)
    (hds : IsDirectory ds) : names (join (ofNames ds) x) = names x ++ ds := by
  have hjoin {n : List Char} {rest : List (List Char)} (hn : n ≠ []) (heq : ds = n :: rest) :
      names (join (ofNames ds) x) = names x ++ ds := by
    subst heq
    have hlast := getLast?_ofNames hn rest
    have hempty : ofNames (n :: rest) ≠ "" := by
      intro h
      rw [h] at hlast
      exact hn (List.getLast?_eq_none_iff.1 hlast.symm)
    have hslash : ((ofNames (n :: rest)).toList.getLast? == some '/') = false := by
      rw [hlast, beq_eq_false_iff_ne]
      exact fun h => hds.slash n List.mem_cons_self (List.mem_of_getLast? h)
    rw [join, if_neg (by simp [hx]), if_neg (by simp [hempty, hslash]), names_append_slash,
      names_ofNames hn hds.slash]
  rcases hds.last with ⟨n, rfl⟩ | ⟨n, rest, heq, hfiller⟩
  · by_cases hn : n = []
    · subst hn
      have hroot : join (ofNames [[]]) x = "" ++ "/" ++ x := by
        simp [join, hx, ofNames]
      rw [hroot, names_append_slash]
      rfl
    · exact hjoin hn rfl
  · exact hjoin (ne_nil_of_isFiller hfiller) heq

theorem isDirectory_dropFillers {ns : List (List Char)} (hns : ns ≠ [])
    (hslash : ∀ n ∈ ns, '/' ∉ n) : IsDirectory (dropFillers ns) := by
  refine ⟨?_, fun n hn => hslash n (mem_of_mem_dropFillers hn)⟩
  rcases dropFillers_cases ns with h | h | h
  · exact .inl h
  · exact absurd h (dropFillers_ne_nil hns)
  · exact .inr h

/-- Whether a character other than the slash is in a path can be seen from the names. -/
theorem mem_toList_iff {path : String} {c : Char} (hc : c ≠ '/') :
    c ∈ path.toList ↔ ∃ n ∈ names path, c ∈ n := by
  have htext : path.toList = List.intercalate ['/'] (path.toList.splitOn '/') :=
    (List.intercalate_splitOn '/').symm
  constructor
  · intro h
    rw [htext] at h
    rcases exists_of_mem_intercalate h with h | ⟨n, hn, hcn⟩
    · exact absurd (List.mem_singleton.1 h) hc
    · exact ⟨n, List.mem_reverse.2 hn, hcn⟩
  · rintro ⟨n, hn, hcn⟩
    rw [htext]
    exact mem_intercalate_of_mem (List.mem_reverse.1 hn) hcn

section Joined

variable {ds : List (List Char)} {x : String}

/-- A path seen from a directory starts where the path of the directory starts. -/
theorem isAbsolute_join (hx : isAbsolute x = false) (hds : IsDirectory ds) :
    isAbsolute (join (ofNames ds) x) = (ds.getLast? == some []) := by
  have hne : ds ≠ [] := by
    rintro rfl
    rcases hds.last with ⟨n, hn⟩ | ⟨n, rest, hn, -⟩
    · cases hn
    · cases hn
  have hlast : (names x ++ ds).getLast? = ds.getLast? := by
    rw [List.getLast?_append, Option.or_of_isSome]
    simpa using hne
  have hlength : 1 < (names x).length + ds.length := by
    have hpos := List.length_pos_iff.2 (names_ne_nil x)
    have hpos' := List.length_pos_iff.2 hne
    omega
  rw [Bool.eq_iff_iff, isAbsolute_iff, names_join hx hds, hlast, List.length_append, beq_iff_eq,
    and_iff_left hlength]

/-- A character that is not in a directory is in a path seen from it if it is in the path. -/
theorem mem_toList_join (hx : isAbsolute x = false) (hds : IsDirectory ds) {c : Char} (hc : c ≠ '/')
    (hfree : ∀ n ∈ ds, c ∉ n) : c ∈ (join (ofNames ds) x).toList ↔ c ∈ x.toList := by
  rw [mem_toList_iff hc, mem_toList_iff hc, names_join hx hds]
  constructor
  · rintro ⟨n, hn, hcn⟩
    rcases List.mem_append.1 hn with hn | hn
    · exact ⟨n, hn, hcn⟩
    · exact absurd hcn (hfree n hn)
  · rintro ⟨n, hn, hcn⟩
    exact ⟨n, List.mem_append_left _ hn, hcn⟩

theorem join_ne_empty (directory : String) (hx : x ≠ "") : join directory x ≠ "" := by
  unfold join
  split
  · exact hx
  · split
    · simp [hx]
    · simp [hx]

end Joined

/-- Every path that is joined to a directory gets the same in front. -/
theorem exists_join_eq (directory : String) :
    ∃ d, ∀ x, isAbsolute x = false → join directory x = d ++ x := by
  by_cases h : (directory = "" || directory.toList.getLast? == some '/') = true
  · exact ⟨directory, fun x hx => by rw [join, hx, if_neg Bool.false_ne_true, if_pos h]⟩
  · exact ⟨directory ++ "/", fun x hx => by rw [join, hx, if_neg Bool.false_ne_true, if_neg h]⟩

/-- Joining a name to a directory and a path to both is joining the two to the directory. -/
theorem join_join {m x : String} (directory : String) (hm : m ≠ "") (hslash : '/' ∉ m.toList)
    (hx : isAbsolute x = false) : join (join directory m) x = join directory (m ++ "/" ++ x) := by
  have hmlist : m.toList ≠ [] := fun h => hm (String.toList_eq_nil_iff.1 h)
  have habsolute {y : String} : isAbsolute (m ++ y) = false := by
    obtain ⟨c, cs, hcs⟩ := List.exists_cons_of_ne_nil hmlist
    have hc : c ≠ '/' := fun h => hslash (by simp [hcs, h])
    simp [isAbsolute, hcs, hc]
  have habsolute' : isAbsolute m = false := by
    have h := habsolute (y := "")
    rwa [String.append_empty] at h
  -- the inner path ends like `m`, so a slash is put behind it
  have hbehind (d : String) : join (d ++ m) x = d ++ m ++ "/" ++ x := by
    have hlast : ((d ++ m).toList.getLast? == some '/') = false := by
      rw [String.toList_append, List.getLast?_append, beq_eq_false_iff_ne]
      intro h
      cases hlast : m.toList.getLast? with
      | none => exact hmlist (List.getLast?_eq_none_iff.1 hlast)
      | some c =>
        rw [hlast] at h
        exact hslash (List.mem_of_getLast? (hlast.trans h))
    have hempty : decide (d ++ m = "") = false := by simp [hm]
    rw [join, hx, hempty, hlast]
    rfl
  obtain ⟨d, hd⟩ := exists_join_eq directory
  have hm' : isAbsolute (m ++ "/" ++ x) = false := by
    rw [String.append_assoc]
    exact habsolute
  rw [hd m habsolute', hbehind, hd _ hm', String.append_assoc, String.append_assoc,
    String.append_assoc]

end Path

namespace FileTree

variable {t : FileTree}

/-! ## Spellings -/

theorem lookup_of_fileLocation? {path : String} {l : Location}
    (h : t.fileLocation? path = some l) :
    ∃ content, t.lookup path = .ok (l, .file content) ∧ t.file? l = some content := by
  unfold fileLocation? at h
  split at h
  · next k content hlookup =>
    obtain rfl := Option.some.inj h
    refine ⟨content, hlookup, ?_⟩
    unfold lookup at hlookup
    split at hlookup
    · simp at hlookup
    · next k' _ =>
      cases hnode : t.node? k' with
      | none => simp [hnode] at hlookup
      | some n =>
        simp only [hnode, Except.ok.injEq, Prod.mk.injEq] at hlookup
        obtain ⟨rfl, rfl⟩ := hlookup
        simp [file?, hnode]
  · simp at h

theorem nul_notMem_of_locate {path : String} {l : Location} (h : t.locate path = .ok l) :
    '\x00' ∉ path.toList := by
  unfold locate at h
  split at h
  · simp at h
  · split at h
    · simp at h
    · next hnul => simpa using hnul

/-- What a directory lies in is no file. -/
def Orderly (t : FileTree) : Prop :=
  ∀ l, t.node? l = some .directory → t.file? l.dropLast = none

/-- The file that a path leads to from a directory, however long the path is. -/
def fileFrom? (t : FileTree) (d : Location) (x : String) : Option Location :=
  if x.toList.contains '\x00' then none
  else match t.walk (if Path.isAbsolute x then [] else d) (Path.names x).reverse with
    | .ok l => (t.file? l).map fun _ => l
    | .error _ => none

theorem fileLocation?_eq_fileFrom? {path : String} (hpath : path ≠ "")
    (hsize : path.utf8ByteSize < maxPathSize) :
    t.fileLocation? path = t.fileFrom? t.workingDirectory path := by
  unfold fileLocation? lookup locate fileFrom?
  rw [if_neg hpath]
  by_cases hnul : path.toList.contains '\x00' = true
  · rw [if_pos hnul, if_pos hnul]
  · rw [if_neg hnul, if_neg hnul, if_neg (Nat.not_le.2 hsize)]
    cases hl : t.walk (if Path.isAbsolute path then [] else t.workingDirectory)
        (Path.names path).reverse with
    | error e => rfl
    | ok l =>
      cases hnode : t.node? l with
      | none => simp [file?, hnode]
      | some n =>
        cases n with
        | directory => simp [file?, hnode]
        | file content => simp [file?, hnode]

/-- Fillers behind a directory lead nowhere else. -/
theorem walk_dropFillers {at' d : Location} {ns : List (List Char)}
    (h : t.walk at' ns.reverse = .ok d) : t.walk at' (Path.dropFillers ns).reverse = .ok d := by
  fun_induction Path.dropFillers ns with
  | case1 => exact h
  | case2 => exact h
  | case3 n rest _ hn ih =>
    rw [List.reverse_cons, walk_append] at h
    cases hrest : t.walk at' rest.reverse with
    | error e => simp [hrest, Except.bind] at h
    | ok d' =>
      refine ih (hrest.trans ?_)
      rw [hrest] at h
      simp only [Except.bind, walk, hn, if_true] at h
      split at h
      · simp at h
      · simp at h
      · exact h
  | case4 => exact h

/-- A file lies in the directory from which its last name leads to it. -/
theorem dropLast_of_walk (ht : t.Orderly) {d l : Location} {n : List Char} {content : Option String}
    (hn : Path.isFiller n = false) (hdirectory : t.node? d = some .directory)
    (hwalk : t.walk d [n] = .ok l) (hfile : t.file? l = some content) : l.dropLast = d := by
  by_cases hup : n = ['.', '.']
  · -- the path would lead to what a directory lies in
    subst hup
    have hback : d.dropLast = l := by
      simpa [walk, hdirectory, Path.isFiller] using hwalk
    have hnone := ht d hdirectory
    rw [hback] at hnone
    simp [hnone] at hfile
  · rw [eq_append_of_walk hn hup hwalk, List.dropLast_concat]

/-- A path seen from a directory leads on from where the names of the directory lead, without its
    fillers. -/
theorem fileFrom?_join {path : String} {d : Location} {rest : List (List Char)}
    (hd : t.walk (t.start path) rest.reverse = .ok d)
    (hstart : Path.isAbsolute path = (rest.getLast? == some []))
    (hds : Path.IsDirectory (Path.dropFillers rest)) (hnul : ∀ n ∈ rest, '\x00' ∉ n) {x : String}
    (hx : Path.isAbsolute x = false) :
    t.fileFrom? t.workingDirectory (Path.join (Path.ofNames (Path.dropFillers rest)) x) =
      t.fileFrom? d x := by
  have hcontains : (Path.join (Path.ofNames (Path.dropFillers rest)) x).toList.contains '\x00' =
      x.toList.contains '\x00' := by
    rw [Bool.eq_iff_iff, List.contains_iff_mem, List.contains_iff_mem]
    exact Path.mem_toList_join hx hds (by decide) fun n hn => hnul n (Path.mem_of_mem_dropFillers hn)
  have hsame : t.start (Path.join (Path.ofNames (Path.dropFillers rest)) x) = t.start path := by
    rw [start, start, Path.isAbsolute_join hx hds, Path.getLast?_dropFillers, hstart]
  unfold fileFrom?
  rw [← start, hsame, hcontains, hx, if_neg Bool.false_ne_true, Path.names_join hx hds,
    List.reverse_append, walk_append, walk_dropFillers hd]
  rfl

/-- From the directory of a file a path leads to the same place, however the file is spelled. -/
theorem fileLocation?_join (ht : t.Orderly) {path : String} {l : Location}
    (h : t.fileLocation? path = some l) {x : String} (hx : x ≠ "")
    (hsize : (Path.join ((Path.parent? path).getD ".") x).utf8ByteSize < maxPathSize) :
    t.fileLocation? (Path.join ((Path.parent? path).getD ".") x) = t.fileFrom? l.dropLast x := by
  by_cases habsolute : Path.isAbsolute x = true
  · have hjoin (d : String) : Path.join d x = x := by rw [Path.join, if_pos habsolute]
    rw [hjoin] at hsize ⊢
    rw [fileLocation?_eq_fileFrom? hx hsize]
    simp only [fileFrom?, habsolute, if_true]
  rw [Bool.not_eq_true] at habsolute
  obtain ⟨n, rest, hnames⟩ := List.exists_cons_of_ne_nil (Path.names_ne_nil path)
  have hn := isFiller_of_fileLocation? h hnames
  have hlocate := (locate_of_fileLocation? h).1
  obtain ⟨content, -, hfile⟩ := lookup_of_fileLocation? h
  obtain ⟨d, hd, hdirectory, hwalk⟩ := exists_of_locate hlocate hnames
  have hstart : Path.isAbsolute path = (rest.getLast? == some []) :=
    Path.isAbsolute_eq (Path.ne_nil_of_isFiller hn) hnames
  rw [Path.parent?_eq hnames hn, Option.getD_some] at hsize ⊢
  rw [dropLast_of_walk ht hn hdirectory hwalk hfile,
    fileLocation?_eq_fileFrom? (Path.join_ne_empty _ hx) hsize]
  by_cases hrest : rest = []
  · subst hrest
    have hjoin : Path.join "" x = x := by simp [Path.join, habsolute]
    have hwd : t.workingDirectory = d := by simpa [start, hstart, walk] using hd
    rw [if_pos rfl, hjoin, hwd]
  · have hmem : ∀ m ∈ rest, m ∈ Path.names path := fun m hm =>
      hnames ▸ List.mem_cons_of_mem n hm
    have hnul : ∀ m ∈ rest, '\x00' ∉ m := fun m hm hc =>
      nul_notMem_of_locate hlocate ((Path.mem_toList_iff (by decide)).2 ⟨m, hmem m hm, hc⟩)
    have hds := Path.isDirectory_dropFillers hrest fun m hm =>
      Path.slash_notMem_of_mem_names (hmem m hm)
    rw [if_neg hrest]
    exact fileFrom?_join hd hstart hds hnul habsolute

end FileTree

end MacroAsm
