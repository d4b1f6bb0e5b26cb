import MacroAsm.Proofs.Diagnostics.Positions
import MacroAsm.Proofs.Source.Discovery

set_option autoImplicit false

/-! # Positions in files

Every line of a file stands in that file, under its number and as it is written there
(`Line.isOf_of_mem_ofText`). What is reported while files are collected stands at lines of these
files (`Includes.at_of_collect`). -/

namespace MacroAsm

/-- A position is that of a line of a file with some text: its number counts from one and does not
    pass the last line, and it holds the line as it is written. -/
structure Position.IsOf (file text : String) (p : Position) : Prop where
  file_eq : p.file = file
  one_le : 1 ≤ p.line
  le_length : p.line ≤ (Text.lines text.toList).length
  raw_eq : (Text.lines text.toList)[p.line - 1]? = some p.raw.toList

namespace Line

variable {file text path : String} {lines : List Line} {l : Line}

/-- A position is that of one of some lines. -/
def Places (lines : List Line) (p : Position) : Prop :=
  ∃ l ∈ lines, l.position = p

theorem places (hl : l ∈ lines) : Places lines l.position :=
  ⟨l, hl, rfl⟩

/-- The lines of a text stand where they are written. -/
theorem isOf_of_mem_ofText (hl : l ∈ ofText file text) : l.position.IsOf file text := by
  obtain ⟨⟨cs, i⟩, hmem, rfl⟩ := List.mem_map.1 hl
  have hget : (Text.lines text.toList)[i]? = some cs := List.mem_zipIdx_iff_getElem?.1 hmem
  have hlt := (List.getElem?_eq_some_iff.1 hget).1
  refine ⟨rfl, Nat.succ_le_succ (Nat.zero_le i), hlt, ?_⟩
  show (Text.lines text.toList)[i + 1 - 1]? = some (String.ofList cs).toList
  rw [Nat.add_sub_cancel, String.toList_ofList, hget]

/-- The lines that are loaded from a path are those of the text of a file. -/
theorem exists_text_of_load {t : FileTree} (h : load t path = .ok lines) :
    ∃ location text, t.lookup path = .ok (location, .file (some text)) ∧
      lines = ofText path text := by
  unfold load at h
  split at h
  · simp at h
  · simp at h
  · simp at h
  · next location text hlookup => exact ⟨location, text, hlookup, (Except.ok.inj h).symm⟩

end Line

namespace Includes

/-- What a file asks for stands on a line of it. -/
theorem Request.at_of_mem_requests {path : String} {lines : List Line} {r : Request}
    (hr : r ∈ requests path lines) {t : FileTree} {m : Message} (hm : r.message? t = some m) :
    m.At (Line.Places lines) := by
  obtain ⟨l, hl, hr⟩ := List.mem_flatMap.1 hr
  have hplaces := Line.places hl
  have hline : r = .empty l ∨ ∃ directory asked, r = .name directory l asked := by
    unfold requestsOf at hr
    split at hr
    · split at hr
      · split at hr
        · exact .inl (List.mem_singleton.1 hr)
        · obtain ⟨asked, -, rfl⟩ := List.mem_map.1 hr
          exact .inr ⟨_, asked, rfl⟩
      · simp at hr
    · simp at hr
  rcases hline with rfl | ⟨directory, asked, rfl⟩
  · obtain rfl := Option.some.inj hm
    exact Message.at_about hplaces _ _
  · rw [message?] at hm
    split at hm
    · obtain rfl := Option.some.inj hm
      exact (Message.at_about hplaces _ _).withNote (by simp) _
    · simp at hm

/-- The messages about included files stand at lines of the root and of the files collected. -/
theorem at_of_collect {t : FileTree} {root : String} {lines : List Line} {c : Collection}
    (h : collect t root lines = .ok c) :
    c.report.At fun p => Line.Places lines p ∨ ∃ f ∈ c.files.toList, Line.Places f.lines p := by
  obtain ⟨files, messages, hvisits, hfiles, hreport⟩ := visits_of_serve h
  obtain rfl : c.files.toList = files := by simpa using hfiles
  obtain rfl : c.report.toList = messages := by simpa using hreport
  intro m hm p hp
  obtain ⟨r, hr, hmessage⟩ := List.mem_filterMap.1 (hvisits.messages_perm.mem_iff.1 hm)
  rcases List.mem_append.1 hr with hr | hr
  · exact .inl (Request.at_of_mem_requests hr hmessage p hp)
  · obtain ⟨f, hf, hr⟩ := List.mem_flatMap.1 hr
    exact .inr ⟨f, hf, Request.at_of_mem_requests hr hmessage p hp⟩

end Includes

end MacroAsm
