import MacroAsm.Source.Includes

set_option autoImplicit false

/-! # Discovery of included files

Files are collected from a list of pending requests, to which each new file adds its own. What this
amounts to is a search depth first (`Includes.Visits`): a file is followed by all that its requests
lead to, and only then by what is behind it in the including file. Everything that is known of a
collection is read off that search, one fact at a time, each by induction on it. -/

namespace MacroAsm

namespace Includes

/-! ## Requests -/

namespace Request

variable (t : FileTree)

/-- Where a request leads: the path that is found for it, and its location. -/
def found? : Request → Option (String × Location)
  | .name directory _ asked =>
    (find? t directory asked).bind fun path => (t.fileLocation? path).map fun l => (path, l)
  | .empty _ => none

/-- The error of a request that leads nowhere. -/
def message? : Request → Option Message
  | .name directory l asked =>
    if (find? t directory asked).isNone then some (missingMessage directory l asked) else none
  | .empty l => some (emptyMessage l)

variable {t}

theorem isFile_of_found? {r : Request} {path : String} {l : Location}
    (h : r.found? t = some (path, l)) : t.fileLocation? path = some l := by
  cases r with
  | empty line => simp [found?] at h
  | name directory line asked =>
    simp only [found?, Option.bind_eq_some_iff, Option.map_eq_some_iff, Prod.mk.injEq] at h
    obtain ⟨path', -, l', hl', rfl, rfl⟩ := h
    exact hl'

/-- A request leads to a file or has an error. -/
theorem message?_eq_none_of_found? {r : Request} {found : String × Location}
    (h : r.found? t = some found) : r.message? t = none := by
  cases r with
  | empty line => simp [found?] at h
  | name directory line asked =>
    simp only [found?, Option.bind_eq_some_iff] at h
    obtain ⟨path, hpath, -⟩ := h
    simp [message?, hpath]

theorem found?_eq_none_of_message? {r : Request} {m : Message} (h : r.message? t = some m) :
    r.found? t = none := by
  cases hf : r.found? t with
  | none => rfl
  | some found => simp [message?_eq_none_of_found? hf] at h

end Request

/-- What is asked for by a root file and by some included files. -/
def requestsIn (pending : List Request) (files : List Loaded) : List Request :=
  pending ++ files.flatMap fun f => requests f.path f.lines

/-- The requests of a new file and of what it leads to come between this request and those behind
    it. -/
theorem requestsIn_new (r : Request) (rest : List Request) (f : Loaded) (own others : List Loaded) :
    (requestsIn (r :: rest) (f :: (own ++ others))).Perm
      (r :: (requestsIn (requests f.path f.lines) own ++ requestsIn rest others)) := by
  let asked (files : List Loaded) : List Request := files.flatMap fun f => requests f.path f.lines
  let first := requests f.path f.lines ++ asked own
  have hleft : requestsIn (r :: rest) (f :: (own ++ others)) =
      r :: ((rest ++ first) ++ asked others) := by
    simp [requestsIn, first, asked]
  have hright : r :: (requestsIn (requests f.path f.lines) own ++ requestsIn rest others) =
      r :: ((first ++ rest) ++ asked others) := by
    simp [requestsIn, first, asked]
  rw [hleft, hright]
  exact (List.perm_append_comm.append_right _).cons r

/-- The locations of some included files. -/
def locations (files : List Loaded) : List Location :=
  files.map Loaded.location

/-! ## Searching depth first -/

variable {t : FileTree} {root : Root}

/-- The search for what some requests lead to, when some files were seen before: the files that it
    discovers, and the errors that it reports. A new file comes first, then what its own requests lead
    to, then what the requests behind it lead to. -/
inductive Visits (t : FileTree) (root : Root) :
    List Location → List Request → List Loaded → List Message → Prop
  | done (seen : List Location) : Visits t root seen [] [] []
  | refused {seen : List Location} {r : Request} {rest : List Request} {files : List Loaded}
      {m : Message} {messages : List Message} (hmessage : r.message? t = some m)
      (hrest : Visits t root seen rest files messages) :
      Visits t root seen (r :: rest) files (m :: messages)
  | known {seen : List Location} {r : Request} {rest : List Request} {files : List Loaded}
      {messages : List Message} {path : String} {l : Location}
      (hfound : r.found? t = some (path, l)) (hknown : root.isFile path l = true ∨ l ∈ seen)
      (hrest : Visits t root seen rest files messages) :
      Visits t root seen (r :: rest) files messages
  | new {seen : List Location} {r : Request} {rest : List Request} {f : Loaded}
      {own others : List Loaded} {messages messages' : List Message}
      (hfound : r.found? t = some (f.path, f.location))
      (hroot : root.isFile f.path f.location = false) (hseen : f.location ∉ seen)
      (hlines : Line.load t f.path = .ok f.lines)
      (hown : Visits t root (f.location :: seen) (requests f.path f.lines) own messages)
      (hrest : Visits t root ((locations own).reverse ++ f.location :: seen) rest others messages') :
      Visits t root seen (r :: rest) (f :: (own ++ others)) (messages ++ messages')

/-- The search for what two lists of requests lead to is the search for the first, then the one for the
    second. -/
theorem Visits.exists_append {seen : List Location} {pending pending' : List Request}
    {files : List Loaded} {messages : List Message}
    (h : Visits t root seen (pending ++ pending') files messages) :
    ∃ own others ms ms', Visits t root seen pending own ms ∧
      Visits t root ((locations own).reverse ++ seen) pending' others ms' ∧
      files = own ++ others ∧ messages = ms ++ ms' := by
  induction pending generalizing seen files messages with
  | nil => exact ⟨[], files, [], messages, .done seen, h, rfl, rfl⟩
  | cons r pending ih =>
    rw [List.cons_append] at h
    cases h with
    | refused hmessage hrest =>
      obtain ⟨own, others, ms, ms', hown, hothers, rfl, rfl⟩ := ih hrest
      exact ⟨own, others, _, ms', .refused hmessage hown, hothers, rfl, rfl⟩
    | known hfound hknown hrest =>
      obtain ⟨own, others, ms, ms', hown, hothers, rfl, rfl⟩ := ih hrest
      exact ⟨own, others, ms, ms', .known hfound hknown hown, hothers, rfl, rfl⟩
    | @new _ _ _ f inner _ ns _ hfound hroot hseen hlines hinner hrest =>
      obtain ⟨own, others, ms, ms', hown, hothers, rfl, rfl⟩ := ih hrest
      refine ⟨f :: (inner ++ own), others, ns ++ ms, ms',
        .new hfound hroot hseen hlines hinner hown, ?_, ?_, ?_⟩
      · simpa [locations] using hothers
      · simp
      · simp

/-- What is served is what the search discovers. -/
theorem visits_of_serve {seen : List Location} {c c' : Collection} {pending : List Request}
    (h : serve t root seen c pending = .ok c') :
    ∃ files messages, Visits t root seen pending files messages ∧
      c'.files.toList = c.files.toList ++ files ∧
      c'.report.toList = c.report.toList ++ messages := by
  fun_induction serve t root seen c pending with
  | case1 seen c =>
    obtain rfl := Except.ok.inj h
    exact ⟨[], [], .done seen, by simp, by simp⟩
  | case2 seen c l rest ih =>
    obtain ⟨files, messages, hvisits, hfiles, hreport⟩ := ih h
    exact ⟨files, _, .refused rfl hvisits, hfiles, by simp [hreport]⟩
  | case3 seen c directory l name rest hnone ih =>
    obtain ⟨files, messages, hvisits, hfiles, hreport⟩ := ih h
    have hmessage : (Request.name directory l name).message? t =
        some (missingMessage directory l name) := by simp [Request.message?, hnone]
    exact ⟨files, _, .refused hmessage hvisits, hfiles, by simp [hreport]⟩
  | case4 seen c directory l name rest path hpath hnone ih =>
    -- what is found for a name is a file
    have hfile := List.find?_some hpath
    simp [FileTree.isFile, hnone] at hfile
  | case5 seen c directory l name rest path hpath location hlocation hroot ih =>
    obtain ⟨files, messages, hvisits, hfiles, hreport⟩ := ih h
    have hfound : (Request.name directory l name).found? t = some (path, location) := by
      simp [Request.found?, hpath, hlocation]
    exact ⟨files, messages, .known hfound (.inl hroot) hvisits, hfiles, hreport⟩
  | case6 seen c directory l name rest path hpath location hlocation hroot hseen ih =>
    obtain ⟨files, messages, hvisits, hfiles, hreport⟩ := ih h
    have hfound : (Request.name directory l name).found? t = some (path, location) := by
      simp [Request.found?, hpath, hlocation]
    exact ⟨files, messages, .known hfound (.inr hseen) hvisits, hfiles, hreport⟩
  | case7 => simp at h
  | case8 seen c directory l name rest path hpath location hlocation hroot hseen _ lines hlines ih =>
    obtain ⟨files, messages, hvisits, hfiles, hreport⟩ := ih h
    obtain ⟨own, others, ms, ms', hown, hothers, rfl, rfl⟩ := hvisits.exists_append
    have hfound : (Request.name directory l name).found? t = some (path, location) := by
      simp [Request.found?, hpath, hlocation]
    refine ⟨⟨path, location, lines⟩ :: (own ++ others), ms ++ ms',
      .new hfound (by simpa using hroot) hseen hlines hown hothers, ?_, ?_⟩
    · simpa using hfiles
    · simpa using hreport

/-! ## What the search discovers -/

namespace Visits

variable {seen : List Location} {pending : List Request} {files : List Loaded}
  {messages : List Message}

/-- No file is discovered twice, and none that was seen before. -/
theorem nodup (h : Visits t root seen pending files messages) :
    (locations files).Nodup ∧ ∀ l ∈ locations files, l ∉ seen := by
  induction h with
  | done seen => simp [locations]
  | refused _ _ ih => exact ih
  | known _ _ _ ih => exact ih
  | @new seen r rest f own others _ _ _ _ hseen _ _ _ ihown ihrest =>
    obtain ⟨hown, hownseen⟩ := ihown
    obtain ⟨hothers, hothersseen⟩ := ihrest
    have hownf : f.location ∉ locations own := fun h => hownseen _ h List.mem_cons_self
    have hothersf : f.location ∉ locations others := fun h => hothersseen _ h (by simp)
    have hdisjoint : ∀ l ∈ locations own, l ∉ locations others := fun l hl hl' =>
      hothersseen l hl' (by simp [hl])
    have hlocations : locations (f :: (own ++ others)) =
        f.location :: (locations own ++ locations others) := by simp [locations]
    rw [hlocations]
    refine ⟨List.nodup_cons.2 ⟨by simp [hownf, hothersf], ?_⟩, fun l hl => ?_⟩
    · exact List.nodup_append.2 ⟨hown, hothers, fun l hl l' hl' heq =>
        hdisjoint l hl (heq ▸ hl')⟩
    · rcases List.mem_cons.1 hl with rfl | hl
      · exact hseen
      · rcases List.mem_append.1 hl with hl | hl
        · exact fun h => hownseen l hl (List.mem_cons_of_mem _ h)
        · exact fun h => hothersseen l hl (by simp [h])

/-- The root is never discovered, and each file comes with its location and its lines. -/
theorem loaded (h : Visits t root seen pending files messages) :
    ∀ f ∈ files, root.isFile f.path f.location = false ∧
      t.fileLocation? f.path = some f.location ∧ Line.load t f.path = .ok f.lines := by
  induction h with
  | done seen => simp
  | refused _ _ ih => exact ih
  | known _ _ _ ih => exact ih
  | new hfound hroot _ hlines _ _ ihown ihrest =>
    intro g hg
    rcases List.mem_cons.1 hg with rfl | hg
    · exact ⟨hroot, Request.isFile_of_found? hfound, hlines⟩
    · rcases List.mem_append.1 hg with hg | hg
      · exact ihown g hg
      · exact ihrest g hg

/-- Whatever a request leads to was seen before or is discovered, unless it is the root. -/
theorem closed (h : Visits t root seen pending files messages) :
    ∀ r ∈ requestsIn pending files, ∀ {path l}, r.found? t = some (path, l) →
      root.isFile path l = true ∨ l ∈ seen ∨ l ∈ locations files := by
  induction h with
  | done seen => simp [requestsIn]
  | @refused seen r rest files m messages hmessage _ ih =>
    intro r' hr' path l hfound
    rcases List.mem_cons.1 hr' with rfl | hr'
    · simp [Request.found?_eq_none_of_message? hmessage] at hfound
    · exact ih r' hr' hfound
  | @known seen r rest files messages path l hfound hknown _ ih =>
    intro r' hr' path' l' hfound'
    rcases List.mem_cons.1 hr' with rfl | hr'
    · rw [hfound] at hfound'
      obtain ⟨rfl, rfl⟩ := Prod.mk.inj (Option.some.inj hfound')
      rcases hknown with h | h
      · exact .inl h
      · exact .inr (.inl h)
    · exact ih r' hr' hfound'
  | @new seen r rest f own others messages messages' hfound hroot hseen hlines _ _ ihown ihrest =>
    have hlocations : locations (f :: (own ++ others)) =
        f.location :: (locations own ++ locations others) := by simp [locations]
    intro r' hr' path l hfound'
    rw [hlocations]
    have hr' := (requestsIn_new r rest f own others).mem_iff.1 hr'
    rw [List.mem_cons, List.mem_append] at hr'
    rcases hr' with rfl | hown | hrest
    · rw [hfound] at hfound'
      obtain ⟨-, rfl⟩ := Prod.mk.inj (Option.some.inj hfound')
      exact .inr (.inr List.mem_cons_self)
    · rcases ihown r' hown hfound' with h | h | h
      · exact .inl h
      · rcases List.mem_cons.1 h with rfl | h
        · exact .inr (.inr List.mem_cons_self)
        · exact .inr (.inl h)
      · exact .inr (.inr (by simp [h]))
    · rcases ihrest r' hrest hfound' with h | h | h
      · exact .inl h
      · rcases List.mem_append.1 h with h | h
        · exact .inr (.inr (by simp [List.mem_reverse.1 h]))
        · rcases List.mem_cons.1 h with rfl | h
          · exact .inr (.inr List.mem_cons_self)
          · exact .inr (.inl h)
      · exact .inr (.inr (by simp [h]))

/-- There is one error for each request that leads nowhere. -/
theorem messages_perm (h : Visits t root seen pending files messages) :
    messages.Perm ((requestsIn pending files).filterMap (Request.message? t)) := by
  induction h with
  | done seen => exact .refl _
  | refused hmessage _ ih =>
    rw [requestsIn, List.cons_append, List.filterMap_cons_some hmessage]
    exact ih.cons _
  | known hfound _ _ ih =>
    rw [requestsIn, List.cons_append,
      List.filterMap_cons_none (Request.message?_eq_none_of_found? hfound)]
    exact ih
  | @new seen r rest f own others messages messages' hfound _ _ _ _ _ ihown ihrest =>
    have hperm := (requestsIn_new r rest f own others).filterMap (Request.message? t)
    rw [List.filterMap_cons_none (Request.message?_eq_none_of_found? hfound),
      List.filterMap_append] at hperm
    exact (ihown.append ihrest).trans hperm.symm

end Visits

/-! ## Reachable files -/

/-- The files that some requests lead to, followed through the requests of the files in between, where
    requests of one kind count and the root does not. -/
inductive Reachable (t : FileTree) (root : Root) (P : Request → Prop) (pending : List Request) :
    String → Location → Prop
  | direct {r : Request} {path : String} {l : Location} (hr : r ∈ pending) (hP : P r)
      (hfound : r.found? t = some (path, l)) (hroot : root.isFile path l = false) :
      Reachable t root P pending path l
  | through {path path' : String} {l l' : Location} {lines : List Line} {r : Request}
      (hreachable : Reachable t root P pending path l) (hlines : Line.load t path = .ok lines)
      (hr : r ∈ requests path lines) (hP : P r) (hfound : r.found? t = some (path', l'))
      (hroot : root.isFile path' l' = false) : Reachable t root P pending path' l'

variable {P : Request → Prop}

/-- What is reachable by requests that lead to reachable files only is reachable. -/
theorem Reachable.lift {pending pending' : List Request} {path : String} {l : Location}
    (h : Reachable t root P pending' path l)
    (hlift : ∀ r ∈ pending', P r → ∀ {path l}, r.found? t = some (path, l) →
      root.isFile path l = false → Reachable t root P pending path l) :
    Reachable t root P pending path l := by
  induction h with
  | direct hr hP hfound hroot => exact hlift _ hr hP hfound hroot
  | through _ hlines hr hP hfound hroot ih => exact .through ih hlines hr hP hfound hroot

theorem Reachable.cons {pending : List Request} {path : String} {l : Location}
    (h : Reachable t root P pending path l) (r : Request) :
    Reachable t root P (r :: pending) path l :=
  h.lift fun _ hr hP _ _ hfound hroot => .direct (List.mem_cons_of_mem _ hr) hP hfound hroot

/-- What is reachable from a reachable file is reachable. -/
theorem Reachable.trans {pending : List Request} {path path' : String} {l l' : Location}
    {lines : List Line} (h : Reachable t root P pending path l)
    (hlines : Line.load t path = .ok lines)
    (h' : Reachable t root P (requests path lines) path' l') :
    Reachable t root P pending path' l' :=
  h'.lift fun _ hr hP _ _ hfound hroot => .through h hlines hr hP hfound hroot

/-- All that is discovered is reachable. -/
theorem Visits.reachable {seen : List Location} {pending : List Request} {files : List Loaded}
    {messages : List Message} (h : Visits t root seen pending files messages)
    (hP : ∀ r ∈ requestsIn pending files, P r) :
    ∀ f ∈ files, Reachable t root P pending f.path f.location := by
  induction h with
  | done seen => simp
  | refused _ _ ih =>
    intro g hg
    exact (ih (fun r hr => hP r (List.mem_cons_of_mem _ hr)) g hg).cons _
  | known _ _ _ ih =>
    intro g hg
    exact (ih (fun r hr => hP r (List.mem_cons_of_mem _ hr)) g hg).cons _
  | @new seen r rest f own others messages messages' hfound hroot _ hlines _ _ ihown ihrest =>
    have hperm := requestsIn_new r rest f own others
    have hself : Reachable t root P (r :: rest) f.path f.location :=
      .direct List.mem_cons_self (hP r List.mem_cons_self) hfound hroot
    intro g hg
    rcases List.mem_cons.1 hg with rfl | hg
    · exact hself
    · rcases List.mem_append.1 hg with hg | hg
      · exact hself.trans hlines (ihown (fun r' hr' => hP r' (hperm.mem_iff.2 (by simp [hr']))) g hg)
      · exact (ihrest (fun r' hr' => hP r' (hperm.mem_iff.2 (by simp [hr']))) g hg).cons _

/-- A search that cannot be finished has reached a file that cannot be loaded. -/
theorem exists_of_serve_error {seen : List Location} {c : Collection} {pending : List Request}
    {e : Failure} (h : serve t root seen c pending = .error e) :
    ∃ path l, Reachable t root (fun _ => True) pending path l ∧ Line.load t path = .error e := by
  fun_induction serve t root seen c pending with
  | case1 => simp at h
  | case2 seen c l rest ih =>
    obtain ⟨path, k, hreachable, hload⟩ := ih h
    exact ⟨path, k, hreachable.cons _, hload⟩
  | case3 seen c directory l name rest hnone ih =>
    obtain ⟨path, k, hreachable, hload⟩ := ih h
    exact ⟨path, k, hreachable.cons _, hload⟩
  | case4 seen c directory l name rest path hpath hnone ih =>
    obtain ⟨path, k, hreachable, hload⟩ := ih h
    exact ⟨path, k, hreachable.cons _, hload⟩
  | case5 seen c directory l name rest path hpath location hlocation hroot ih =>
    obtain ⟨path, k, hreachable, hload⟩ := ih h
    exact ⟨path, k, hreachable.cons _, hload⟩
  | case6 seen c directory l name rest path hpath location hlocation hroot hseen ih =>
    obtain ⟨path, k, hreachable, hload⟩ := ih h
    exact ⟨path, k, hreachable.cons _, hload⟩
  | case7 seen c directory l name rest path hpath location hlocation hroot hseen _ e' hload =>
    obtain rfl := Except.error.inj h
    have hfound : (Request.name directory l name).found? t = some (path, location) := by
      simp [Request.found?, hpath, hlocation]
    exact ⟨path, location, .direct List.mem_cons_self trivial hfound (by simpa using hroot), hload⟩
  | case8 seen c directory l name rest path hpath location hlocation hroot hseen _ lines hlines ih =>
    obtain ⟨path', k, hreachable, hload⟩ := ih h
    have hfound : (Request.name directory l name).found? t = some (path, location) := by
      simp [Request.found?, hpath, hlocation]
    have hself : Reachable t root (fun _ => True) (.name directory l name :: rest) path location :=
      .direct List.mem_cons_self trivial hfound (by simpa using hroot)
    refine ⟨path', k, hreachable.lift fun r hr hP p' l' hfound' hroot' => ?_, hload⟩
    rcases List.mem_append.1 hr with hr | hr
    · exact .through hself hlines hr hP hfound' hroot'
    · exact .direct (List.mem_cons_of_mem _ hr) hP hfound' hroot'

end Includes

end MacroAsm
