import MacroAsm.Proofs.Files.Directories
import MacroAsm.Proofs.Source.Discovery
import MacroAsm.Proofs.Text.Cuts

set_option autoImplicit false

/-! # Inclusion

A collection holds each file that its root reaches, and holds it once (`Includes.collect_complete`).
A file is known again by its location, so that cycles and other spellings of its path neither go on
forever nor make it a second file. Nor do they lose one: what a file asks for does not depend on the
spelling under which it was found first (`Includes.location?_congr`). -/

namespace MacroAsm

namespace Includes

variable {t : FileTree}

/-! ## Names -/

theorem ne_empty_of_mem_namesIn {s name : String} (h : name ∈ namesIn s) : name ≠ "" := by
  obtain ⟨cs, hcs, rfl⟩ := List.mem_map.1 h
  obtain ⟨rest, literal, hread⟩ := Text.Cut.exists_of_mem_tokens hcs
  have hne : cs ≠ [] := by
    rintro rfl
    unfold readName? Text.readRun? at hread
    split at hread
    · next heq =>
      split at heq
      · simp at heq
      · simp only [Option.some.injEq, Prod.mk.injEq] at heq hread
        exact absurd (heq.1.trans hread.1) (by assumption)
    · simp at hread
  simpa using hne

/-- A name that is asked for stands in a directive of the file. -/
theorem mem_requests_iff {path : String} {lines : List Line} {directory name : String} {l : Line} :
    Request.name directory l name ∈ requests path lines ↔
      directory = (Path.parent? path).getD "." ∧ l ∈ lines ∧
        ∃ d, l.directive? = some d ∧ d.name = directiveName ∧ name ∈ namesIn d.rest := by
  have hone (dir : String) (line : Line) :
      Request.name directory l name ∈ requestsOf dir line ↔ directory = dir ∧ l = line ∧
        ∃ d, line.directive? = some d ∧ d.name = directiveName ∧ name ∈ namesIn d.rest := by
    unfold requestsOf
    cases hd : line.directive? with
    | none => simp
    | some d =>
      by_cases hname : d.name = directiveName
      · cases hnames : namesIn d.rest with
        | nil => simp [hname, hnames]
        | cons n ns =>
          simp only [hname, hnames, if_true, List.mem_map, Request.name.injEq]
          constructor
          · rintro ⟨m, hm, rfl, rfl, rfl⟩
            exact ⟨rfl, rfl, d, rfl, hname, hnames ▸ hm⟩
          · rintro ⟨rfl, rfl, d', hd', -, hm⟩
            obtain rfl := Option.some.inj hd'
            exact ⟨name, hnames ▸ hm, rfl, rfl, rfl⟩
      · simp only [hname, if_false, List.not_mem_nil, false_iff]
        rintro ⟨-, -, d', hd', hname', -⟩
        obtain rfl := Option.some.inj hd'
        exact hname hname'
  unfold requests
  rw [List.mem_flatMap]
  constructor
  · rintro ⟨line, hline, h⟩
    obtain ⟨hdir, rfl, hd⟩ := (hone _ _).1 h
    exact ⟨hdir, hline, hd⟩
  · rintro ⟨hdir, hline, hd⟩
    exact ⟨l, hline, (hone _ _).2 ⟨hdir, rfl, hd⟩⟩

/-! ## Spellings -/

/-- The paths under which a name is searched in a directory. -/
def candidatesIn (name : String) : List String :=
  [Path.join "macrodefs" (name ++ ".mccpu"), name ++ ".mccpu", name]

theorem candidates_eq (directory name : String) :
    candidates directory name = (candidatesIn name).map (Path.join directory) := by
  have hfirst (x : String) : Path.join (Path.join directory "macrodefs") x =
      Path.join directory (Path.join "macrodefs" x) := by
    by_cases hx : Path.isAbsolute x = true
    · have hjoin (d : String) : Path.join d x = x := by rw [Path.join, if_pos hx]
      rw [hjoin, hjoin, hjoin]
    · rw [Bool.not_eq_true] at hx
      rw [Path.join_join directory (by decide) (by decide) hx]
      simp [Path.join, hx]
  simp only [candidates, candidatesIn, List.map_cons, List.map_nil, hfirst]

theorem ne_empty_of_mem_candidatesIn {name x : String} (hname : name ≠ "")
    (h : x ∈ candidatesIn name) : x ≠ "" := by
  simp only [candidatesIn, List.mem_cons, List.not_mem_nil, or_false] at h
  rcases h with rfl | rfl | rfl
  · unfold Path.join
    split
    · simp
    · split
      · simp
      · simp
  · simp
  · exact hname

/-- None of the paths of a request is as long as a path may not be. -/
def Request.Short : Request → Prop
  | .name directory _ asked =>
    ∀ x ∈ candidates directory asked, x.utf8ByteSize < FileTree.maxPathSize
  | .empty _ => True

/-- The location that a request leads to. -/
def Request.location? (t : FileTree) (r : Request) : Option Location :=
  (r.found? t).map Prod.snd

theorem location?_name (directory name : String) (l : Line) :
    (Request.name directory l name).location? t =
      (candidates directory name).findSome? t.fileLocation? := by
  simp only [Request.location?, Request.found?, find?]
  induction candidates directory name with
  | nil => rfl
  | cons x xs ih =>
    rw [List.find?_cons, List.findSome?_cons]
    cases hx : t.fileLocation? x with
    | none =>
      have hfile : t.isFile x = false := by simp [FileTree.isFile, hx]
      rw [hfile]
      exact ih
    | some k =>
      have hfile : t.isFile x = true := by simp [FileTree.isFile, hx]
      simp [hfile, hx]

/-- Seen from a file, a name leads to the same location under all spellings of the file. -/
theorem location?_congr (ht : t.Orderly) {path path' : String} {k : Location}
    (hpath : t.fileLocation? path = some k) (hpath' : t.fileLocation? path' = some k)
    {name : String} (hname : name ≠ "") {l l' : Line}
    (hshort : (Request.name ((Path.parent? path).getD ".") l name).Short)
    (hshort' : (Request.name ((Path.parent? path').getD ".") l' name).Short) :
    (Request.name ((Path.parent? path).getD ".") l name).location? t =
      (Request.name ((Path.parent? path').getD ".") l' name).location? t := by
  have hfrom {q : String} {line : Line} (hq : t.fileLocation? q = some k)
      (hs : (Request.name ((Path.parent? q).getD ".") line name).Short) :
      (Request.name ((Path.parent? q).getD ".") line name).location? t =
        (candidatesIn name).findSome? (t.fileFrom? k.dropLast) := by
    have hall (xs : List String) (hne : ∀ x ∈ xs, x ≠ "")
        (hsize : ∀ x ∈ xs, (Path.join ((Path.parent? q).getD ".") x).utf8ByteSize <
          FileTree.maxPathSize) :
        (xs.map (Path.join ((Path.parent? q).getD "."))).findSome? t.fileLocation? =
          xs.findSome? (t.fileFrom? k.dropLast) := by
      induction xs with
      | nil => rfl
      | cons x xs ih =>
        rw [List.map_cons, List.findSome?_cons, List.findSome?_cons,
          FileTree.fileLocation?_join ht hq (hne x List.mem_cons_self) (hsize x List.mem_cons_self),
          ih (fun y hy => hne y (List.mem_cons_of_mem x hy))
            fun y hy => hsize y (List.mem_cons_of_mem x hy)]
    rw [location?_name, candidates_eq]
    exact hall _ (fun x hx => ne_empty_of_mem_candidatesIn hname hx) fun x hx =>
      hs _ (candidates_eq _ _ ▸ List.mem_map_of_mem hx)
  rw [hfrom hpath hshort, hfrom hpath' hshort']

/-- Two spellings of a file are loaded as lines with the same code. -/
theorem exists_lines_of_load {path path' : String} {k : Location} {lines : List Line}
    (hpath : t.fileLocation? path = some k) (hpath' : t.fileLocation? path' = some k)
    (h : Line.load t path = .ok lines) :
    ∃ lines', Line.load t path' = .ok lines' ∧ lines'.map Line.code = lines.map Line.code := by
  obtain ⟨content, hlookup, hfile⟩ := FileTree.lookup_of_fileLocation? hpath
  obtain ⟨content', hlookup', hfile'⟩ := FileTree.lookup_of_fileLocation? hpath'
  obtain rfl : content = content' := Option.some.inj (hfile.symm.trans hfile')
  unfold Line.load at h ⊢
  rw [hlookup] at h
  rw [hlookup']
  cases content with
  | none => simp at h
  | some text =>
    obtain rfl := Except.ok.inj h
    exact ⟨Line.ofText path' text, rfl, by simp [Line.ofText, Line.ofRaw]⟩

/-- Two spellings of a file ask for the same names. -/
theorem exists_request_congr {path path' : String} {k : Location} {lines lines' : List Line}
    {r : Request} {q : String} {l : Location} (ht : t.Orderly)
    (hpath : t.fileLocation? path = some k) (hpath' : t.fileLocation? path' = some k)
    (hcode : lines'.map Line.code = lines.map Line.code)
    (hr : r ∈ requests path lines) (hfound : r.found? t = some (q, l)) (hshort : r.Short)
    (hshort' : ∀ r' ∈ requests path' lines', r'.Short) :
    ∃ r' ∈ requests path' lines', r'.location? t = some l := by
  cases r with
  | empty line => simp [Request.found?] at hfound
  | name directory line name =>
    obtain ⟨rfl, hline, d, hd, hdirective, hname⟩ := mem_requests_iff.1 hr
    have hmem : line.code ∈ lines'.map Line.code := hcode ▸ List.mem_map_of_mem hline
    obtain ⟨line', hline', heq⟩ := List.mem_map.1 hmem
    have hd' : line'.directive? = some d := by
      unfold Line.directive? at hd ⊢
      rw [heq]
      exact hd
    have hr' : Request.name ((Path.parent? path').getD ".") line' name ∈ requests path' lines' :=
      mem_requests_iff.2 ⟨rfl, hline', d, hd', hdirective, hname⟩
    refine ⟨_, hr', ?_⟩
    rw [← location?_congr ht hpath hpath' (ne_empty_of_mem_namesIn hname) hshort (hshort' _ hr'),
      Request.location?, hfound]
    rfl

/-! ## Collections -/

/-- What a collection is to its root. -/
structure Complete (t : FileTree) (root : String) (lines : List Line) (c : Collection) : Prop where
  /-- Each file is there once. -/
  nodup : (locations c.files.toList).Nodup
  /-- The root is not among them, and each comes with its location and its lines. -/
  loaded : ∀ f ∈ c.files.toList, (Root.of t root).isFile f.path f.location = false ∧
    t.fileLocation? f.path = some f.location ∧ Line.load t f.path = .ok f.lines
  /-- They come in the order in which a search depth first meets them. -/
  preorder : Visits t (.of t root) [] (requests root lines) c.files.toList c.report.toList
  /-- They are those that the root reaches by what it and they ask for. -/
  reachable : ∀ l, l ∈ locations c.files.toList ↔ ∃ path,
    Reachable t (.of t root) (· ∈ requestsIn (requests root lines) c.files.toList)
      (requests root lines) path l
  /-- Under whatever spellings files ask for others, no more can be reached. -/
  spellings : t.Orderly → (∃ l n, t.lookup root = .ok (l, n)) →
    (∀ r ∈ requestsIn (requests root lines) c.files.toList, r.Short) →
    ∀ l, l ∈ locations c.files.toList ↔
      ∃ path, Reachable t (.of t root) Request.Short (requests root lines) path l
  /-- There is one error for each name that leads nowhere and each directive without a name. -/
  report : c.report.toList.Perm
    ((requestsIn (requests root lines) c.files.toList).filterMap (Request.message? t))

theorem Reachable.fileLocation? {root : Root} {P : Request → Prop} {pending : List Request}
    {path : String} {l : Location} (h : Reachable t root P pending path l) :
    t.fileLocation? path = some l := by
  cases h with
  | direct _ _ hfound _ => exact Request.isFile_of_found? hfound
  | through _ _ _ _ hfound _ => exact Request.isFile_of_found? hfound

namespace Visits

variable {root : Root} {pending : List Request} {files : List Loaded} {messages : List Message}

/-- What is reached by requests of the root and of files that are there is there. -/
theorem mem_of_reachable (h : Visits t root [] pending files messages) {path : String}
    {l : Location} (hreachable : Reachable t root (· ∈ requestsIn pending files) pending path l) :
    l ∈ locations files := by
  have hclosed {r : Request} {path : String} {l : Location} (hr : r ∈ requestsIn pending files)
      (hfound : r.found? t = some (path, l)) (hroot : root.isFile path l = false) :
      l ∈ locations files := by
    rcases h.closed r hr hfound with h | h | h
    · simp [hroot] at h
    · simp at h
    · exact h
  cases hreachable with
  | direct _ hP hfound hroot => exact hclosed hP hfound hroot
  | through _ _ _ hP hfound hroot => exact hclosed hP hfound hroot

/-- So is what is reached under other spellings of these files. -/
theorem mem_of_reachable_short (h : Visits t root [] pending files messages) (ht : t.Orderly)
    (hroot : ∀ path path' l, root.isFile path l = root.isFile path' l)
    (hshort : ∀ r ∈ requestsIn pending files, r.Short) {path : String} {l : Location}
    (hreachable : Reachable t root Request.Short pending path l) : l ∈ locations files := by
  have hclosed {r : Request} {path path' : String} {l : Location}
      (hr : r ∈ requestsIn pending files) (hfound : r.found? t = some (path, l))
      (hroot' : root.isFile path' l = false) : l ∈ locations files := by
    rcases h.closed r hr hfound with h | h | h
    · simp [hroot path path', hroot'] at h
    · simp at h
    · exact h
  induction hreachable with
  | direct hr _ hfound hroot' => exact hclosed (List.mem_append_left _ hr) hfound hroot'
  | @through q path k l lines r hq hlines hr hP hfound hroot' ih =>
    obtain ⟨f, hf, rfl⟩ := List.mem_map.1 ih
    obtain ⟨-, hlocation, hload⟩ := h.loaded f hf
    have hasked : ∀ r ∈ requests f.path f.lines, r ∈ requestsIn pending files := fun r hr =>
      List.mem_append_right _ (List.mem_flatMap.2 ⟨f, hf, hr⟩)
    -- the file is in the collection under a spelling of its own
    obtain ⟨lines', hlines', hcode⟩ := exists_lines_of_load hq.fileLocation? hlocation hlines
    obtain rfl : f.lines = lines' := Except.ok.inj (hload.symm.trans hlines')
    obtain ⟨r', hr', hl⟩ := exists_request_congr ht hq.fileLocation? hlocation hcode hr hfound hP
      fun r hr => hshort r (hasked r hr)
    obtain ⟨⟨path', k⟩, hfound', rfl⟩ := Option.map_eq_some_iff.1 hl
    exact hclosed (hasked r' hr') hfound' hroot'

end Visits

/-- **Each reachable file is collected once.** -/
theorem collect_complete (t : FileTree) (root : String) (lines : List Line) :
    match collect t root lines with
    | .ok c => Complete t root lines c
    | .error e => ∃ path l,
      Reachable t (.of t root) (fun _ => True) (requests root lines) path l ∧
        Line.load t path = .error e := by
  split
  · next c hc =>
    obtain ⟨files, messages, hvisits, hfiles, hreport⟩ := visits_of_serve hc
    obtain rfl : c.files.toList = files := by simpa using hfiles
    obtain rfl : c.report.toList = messages := by simpa using hreport
    exact {
      nodup := hvisits.nodup.1
      loaded := hvisits.loaded
      preorder := hvisits
      reachable := fun l => by
        constructor
        · intro hl
          obtain ⟨f, hf, rfl⟩ := List.mem_map.1 hl
          exact ⟨f.path, hvisits.reachable (fun _ hr => hr) f hf⟩
        · rintro ⟨path, hreachable⟩
          exact hvisits.mem_of_reachable hreachable
      spellings := fun ht ⟨k, n, hroot⟩ hshort l => by
        constructor
        · intro hl
          obtain ⟨f, hf, rfl⟩ := List.mem_map.1 hl
          exact ⟨f.path, hvisits.reachable hshort f hf⟩
        · rintro ⟨path, hreachable⟩
          have hsame (path path' : String) (l : Location) :
              (Root.of t root).isFile path l = (Root.of t root).isFile path' l := by
            simp [Root.of, hroot, Root.isFile]
          exact hvisits.mem_of_reachable_short ht hsame hshort hreachable
      report := hvisits.messages_perm }
  · next e he => exact exists_of_serve_error he

end Includes

end MacroAsm
