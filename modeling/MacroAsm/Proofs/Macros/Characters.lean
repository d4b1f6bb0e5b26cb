import MacroAsm.Macros.Expansion
import MacroAsm.Macros.Reader
import MacroAsm.Proofs.Lists
import MacroAsm.Proofs.Macros.Placeholders
import MacroAsm.Proofs.Text.Cuts
import MacroAsm.Proofs.Text.Trimming

set_option autoImplicit false

/-! # Characters of expanded code

An expansion makes up no characters but the digits of its number: everything else in its lines comes
from the lines of the macro and from the operands of the use, and those come from the line of the
use. So whatever holds of all characters of the source, and of digits, holds of all characters of
the expanded code (`MacroTable.expand_forall`). -/

namespace MacroAsm

variable {P : Char → Prop}

/-! ## Operands of a use -/

/-- The texts that a thread has read consist of such characters. -/
structure Thread.Has (P : Char → Prop) (t : Thread) : Prop where
  text : ∀ c ∈ t.text, P c
  operands : ∀ w ∈ t.operands, ∀ c ∈ w, P c

theorem Thread.Has.completed {t : Thread} (ht : t.Has P) : ∀ w ∈ t.completed, ∀ c ∈ w, P c := by
  intro w hw
  unfold Thread.completed at hw
  split at hw
  · rcases List.mem_cons.1 hw with rfl | hw
    · exact ht.text
    · exact ht.operands w hw
  · exact ht.operands w hw

/-- One more character for the piece that a thread is in. -/
theorem Thread.Has.read {t : Thread} {c : Char} (ht : t.Has P) (hc : P c) (left : List Text.Shape) :
    Thread.Has P { t with left, text := c :: t.text } := by
  refine ⟨fun d hd => ?_, ht.operands⟩
  rcases List.mem_cons.1 hd with rfl | hd
  · exact hc
  · exact ht.text d hd

theorem Thread.Has.after {t t' : Thread} {c : Char} (ht : t.Has P) (hc : P c)
    (h : t' ∈ t.after c) : t'.Has P := by
  rcases Thread.mem_after_iff.1 h with ⟨left, -, rfl⟩ | ⟨-, piece, behind, -, left, -, rfl⟩
  · exact ht.read hc left
  · exact ⟨List.forall_mem_singleton.2 hc, ht.completed⟩

namespace Opener

/-- Threads are dropped, never made up. -/
theorem mem_of_mem_distinct {ts : List Thread} {t : Thread} (h : t ∈ distinct ts) : t ∈ ts := by
  have hfold : ∀ (us : List Thread) (kept : List Thread × Ahead), t ∈ (us.foldl keep kept).1 →
      t ∈ kept.1 ∨ t ∈ us := by
    intro us
    induction us with
    | nil => exact fun kept h => .inl h
    | cons u us ih =>
      intro kept h
      rcases ih _ h with h | h
      · unfold keep at h
        dsimp only at h
        split at h
        · exact .inl h
        · rcases List.mem_cons.1 h with rfl | h
          · exact .inr List.mem_cons_self
          · exact .inl h
      · exact .inr (List.mem_cons_of_mem u h)
  unfold distinct at h
  split at h
  · exact h
  · exact h
  · rcases hfold _ _ (List.mem_reverse.1 h) with h | h
    · simp at h
    · exact h

section Threads

variable {I : Thread → Prop}

/-- What each character keeps of a thread holds of the thread that ends at the end of the line. -/
theorem exists_of_follow {t : Thread} {text : List Char} {others : List Thread} {cs : List Char}
    (hafter : ∀ c ∈ cs, ∀ u v, I u → v ∈ u.after c → I v) (ht : I { t with text })
    (hothers : ∀ u ∈ others, I u) {ws : List (List Char)}
    (h : follow t text others cs = some ws) : ∃ u, I u ∧ u.finish? = some ws := by
  induction cs generalizing t text others with
  | nil =>
    rw [follow] at h
    obtain ⟨u, hu, hfinish⟩ := List.exists_of_findSome?_eq_some h
    rcases List.mem_cons.1 hu with rfl | hu
    · exact ⟨_, ht, hfinish⟩
    · exact ⟨u, hothers u hu, hfinish⟩
  | cons c cs ih =>
    have hc := hafter c List.mem_cons_self
    have htail := fun d hd => hafter d (List.mem_cons_of_mem c hd)
    rw [follow] at h
    split at h
    · next hstays =>
      have hread : ({ t with text := c :: text } : Thread) ∈ Thread.after c { t with text } := by
        rw [Thread.after_of_stays (t := { t with text }) (Bool.and_eq_true_iff.1 hstays).2]
        exact List.mem_singleton_self _
      exact ih htail (hc _ _ ht hread) hothers h
    · have hstep : ∀ u ∈ step c ({ t with text } :: others), I u := by
        intro u hu
        rw [step_eq] at hu
        obtain ⟨v, hv, huv⟩ := List.mem_flatMap.1 (mem_of_mem_distinct hu)
        rcases List.mem_cons.1 hv with rfl | hv
        · exact hc _ u ht huv
        · exact hc v u (hothers v hv) huv
      split at h
      · simp at h
      · next u us heq =>
        rw [heq] at hstep
        exact ih htail (hstep u List.mem_cons_self)
          (fun v hv => hstep v (List.mem_cons_of_mem u hv)) h

/-- The operands of a use are those of a thread, unless there are none. -/
theorem exists_of_matchTrimmed? {o : Opener} {cs : List Char}
    (hstart : ∀ piece behind count, I ⟨piece, [piece.shape], behind, count, [], []⟩)
    (hafter : ∀ c ∈ cs, ∀ u v, I u → v ∈ u.after c → I v) {ws : List (List Char)}
    (h : matchTrimmed? o cs = some ws) : ws = [] ∨ ∃ u, I u ∧ u.finish? = some ws := by
  induction o generalizing cs with
  | nil =>
    unfold matchTrimmed? at h
    split at h
    · exact .inl (Option.some.inj h).symm
    · simp at h
  | cons piece behind ih =>
    have hfollow (h : follow ⟨piece, [piece.shape], behind, behind.length, [], []⟩ [] [] cs =
        some ws) : ws = [] ∨ ∃ u, I u ∧ u.finish? = some ws :=
      .inr (exists_of_follow hafter (hstart piece behind behind.length) (by simp) h)
    cases piece with
    | char c =>
      cases cs with
      | nil => simp [matchTrimmed?] at h
      | cons d cs =>
        rw [matchTrimmed?] at h
        split at h
        · exact ih (fun e he => hafter e (List.mem_cons_of_mem d he)) h
        · simp at h
    | gap => exact hfollow (by simpa only [matchTrimmed?] using h)
    | comma => exact hfollow (by simpa only [matchTrimmed?] using h)
    | operand k => exact hfollow (by simpa only [matchTrimmed?] using h)

end Threads

theorem finish?_forall {t : Thread} (ht : t.Has P) {ws : List (List Char)}
    (h : t.finish? = some ws) : ∀ w ∈ ws, ∀ c ∈ w, P c := by
  obtain ⟨-, rfl⟩ := Thread.finish?_eq_some_iff.1 h
  intro w hw c hc
  obtain ⟨v, hv, rfl⟩ := List.mem_map.1 hw
  exact ht.completed v (List.mem_reverse.1 hv) c (List.mem_reverse.1 hc)

/-- What an operand takes is part of the line. -/
theorem matchTrimmed?_forall {o : Opener} {cs : List Char} (hcs : ∀ c ∈ cs, P c)
    {ws : List (List Char)} (h : matchTrimmed? o cs = some ws) : ∀ w ∈ ws, ∀ c ∈ w, P c := by
  rcases exists_of_matchTrimmed? (I := Thread.Has P) (fun _ _ _ => ⟨by simp, by simp⟩)
    (fun c hc u v hu hv => hu.after (hcs c hc) hv) h with rfl | ⟨u, hu, hfinish⟩
  · simp
  · exact finish?_forall hu hfinish

end Opener

/-! ## Lines of a macro -/

theorem Placeholder.mem_of_read? {cs literal : List Char} {token : Placeholder}
    (h : read? cs = some (token, literal)) : ∀ c ∈ literal, c ∈ cs := by
  intro c hc
  rw [eq_tail_append h]
  exact List.mem_append_right _ hc

/-- A filled line consists of the characters of the line, of the operands and of digits. -/
theorem Placeholder.fill_forall {line s : String} {args : List String} {uid : Nat}
    (hdigit : ∀ c, c.isDigit = true → P c) (hline : ∀ c ∈ line.toList, P c)
    (hargs : ∀ a ∈ args, ∀ c ∈ a.toList, P c) (h : fill line args uid = .ok s) :
    ∀ c ∈ s.toList, P c := by
  obtain ⟨-, rfl⟩ := fill_eq_ok_iff.1 h
  rw [Text.Cut.toList_fillText]
  have hcut : (cut line).Has P := Text.Cut.has_ofChars mem_of_read? hline
  refine hcut.fill fun token _ c hc => ?_
  cases token with
  | uid =>
    refine hdigit c (Nat.isDigit_of_mem_toDigits (by omega) (by omega) (n := uid) (b := 10) ?_)
    simpa [value?] using hc
  | argument digits =>
    simp only [value?, argument?] at hc
    split at hc
    · next n _ =>
      cases ha : args[n]? with
      | none => simp [ha] at hc
      | some a =>
        rw [ha] at hc
        exact hargs a (List.mem_of_getElem? ha) c hc
    · simp at hc

/-- The lines of a macro consist of such characters. -/
def Macro.Has (P : Char → Prop) (m : Macro) : Prop :=
  ∀ s ∈ m.top ++ m.bottom, ∀ c ∈ s.toList, P c

/-- The code of a line consists of such characters. -/
def Line.Has (P : Char → Prop) (l : Line) : Prop :=
  ∀ c ∈ l.code.toList, P c

/-- The operands of a use are parts of its line. -/
theorem Macro.use?_forall {macros : List Macro} {code : String} (hcode : ∀ c ∈ code.toList, P c)
    {m : Macro} {args : List String} (h : use? macros code = some (m, args)) :
    ∀ a ∈ args, ∀ c ∈ a.toList, P c := by
  obtain ⟨n, -, hmatch⟩ := List.exists_of_findSome?_eq_some h
  obtain ⟨ws, hws, heq⟩ := Option.map_eq_some_iff.1 hmatch
  obtain ⟨rfl, rfl⟩ := Prod.mk.inj heq
  intro a ha c hc
  obtain ⟨w, hw, rfl⟩ := List.mem_map.1 ha
  rw [String.toList_ofList] at hc
  exact Opener.matchTrimmed?_forall (fun d hd => hcode d (Text.mem_of_mem_trim _ hd)) hws w hw c hc

theorem Macro.mem_of_use? {macros : List Macro} {code : String} {m : Macro} {args : List String}
    (h : use? macros code = some (m, args)) : m ∈ macros := by
  obtain ⟨n, hn, hmatch⟩ := List.exists_of_findSome?_eq_some h
  obtain ⟨ws, -, heq⟩ := Option.map_eq_some_iff.1 hmatch
  obtain ⟨rfl, -⟩ := Prod.mk.inj heq
  exact hn

/-! ## Expansions -/

namespace Expansion

/-- A line of an expansion is a filled line of the macro. -/
theorem of_mem_fillLines {templates args : List String} {uid : Nat} {l : Line} {lines : List Line}
    (h : fillLines templates args uid l = .ok lines) {k : Line} (hk : k ∈ lines) :
    ∃ s ∈ templates, ∃ code, Placeholder.fill s args uid = .ok code ∧ l.withCode code = k := by
  have hmem : Except.ok k ∈ templates.map fun s =>
      (Placeholder.fill s args uid).map l.withCode := by
    rw [mapM_eq_ok_iff.1 h]
    exact List.mem_map_of_mem hk
  obtain ⟨s, hs, hfill⟩ := List.mem_map.1 hmem
  cases hcode : Placeholder.fill s args uid with
  | error e => simp [hcode, Except.map] at hfill
  | ok code =>
    simp only [hcode, Except.map, Except.ok.injEq] at hfill
    exact ⟨s, hs, code, hcode, hfill⟩

theorem fillLines_forall {templates args : List String} {uid : Nat} {l : Line} {lines : List Line}
    (hdigit : ∀ c, c.isDigit = true → P c) (htemplates : ∀ s ∈ templates, ∀ c ∈ s.toList, P c)
    (hargs : ∀ a ∈ args, ∀ c ∈ a.toList, P c) (h : fillLines templates args uid l = .ok lines) :
    ∀ k ∈ lines, k.Has P := by
  intro k hk
  obtain ⟨s, hs, code, hcode, rfl⟩ := of_mem_fillLines h hk
  exact Placeholder.fill_forall hdigit (htemplates s hs) hargs hcode

theorem comment_of_fillLines {templates args : List String} {uid : Nat} {l : Line}
    {lines : List Line} (h : fillLines templates args uid l = .ok lines) {k : Line}
    (hk : k ∈ lines) : k.comment = none := by
  obtain ⟨s, -, code, -, rfl⟩ := of_mem_fillLines h hk
  rfl

/-- A block and what is around it are made of the lines that were searched. -/
theorem mem_of_findCloser {m : Macro} {closer : String} {depth : Nat} {before lines : List Line}
    {block : Block} (h : findCloser m closer depth before lines = some block) {l : Line}
    (hl : l ∈ block.inside ∨ l = block.closer ∨ l ∈ block.after) : l ∈ before ∨ l ∈ lines := by
  induction lines generalizing depth before with
  | nil => simp [findCloser] at h
  | cons k rest ih =>
    -- a line that is passed over has only changed from one list to the other
    have hskip {d : Nat} (hd : findCloser m closer d (k :: before) rest = some block) :
        l ∈ before ∨ l ∈ k :: rest := by
      rcases ih hd with h | h
      · rcases List.mem_cons.1 h with rfl | h
        · exact .inr List.mem_cons_self
        · exact .inl h
      · exact .inr (List.mem_cons_of_mem k h)
    unfold findCloser at h
    split at h
    · exact hskip h
    · split at h
      · cases depth with
        | zero =>
          obtain rfl := Option.some.inj h
          rcases hl with hl | rfl | hl
          · exact .inl (List.mem_reverse.1 hl)
          · exact .inr List.mem_cons_self
          · exact .inr (List.mem_cons_of_mem k hl)
        | succ d => exact hskip h
      · exact hskip h

/-- A property of lines that expansions keep: it passes from the line of a use to the operands, and
    from the operands to the lines of the macro. -/
structure Keeps (macros : List Macro) (A : List String → Prop) (Q : Line → Prop) : Prop where
  operands : ∀ {l m args}, Q l → Macro.use? macros l.code = some (m, args) → A args
  lines : ∀ {m templates args uid l lines}, m ∈ macros → templates = m.top ∨ templates = m.bottom →
    A args → fillLines templates args uid l = .ok lines → ∀ k ∈ lines, Q k

section Keeps

variable {macros : List Macro} {A : List String → Prop} {Q : Line → Prop}

/-- The lines after one expansion. -/
theorem Keeps.expandUse (h : Keeps macros A Q) {u : Use} (hmac : u.mac ∈ macros) (hargs : A u.args)
    (hrest : ∀ l ∈ u.rest, Q l) (uid : Nat) : ∀ l ∈ (expandUse u uid).1, Q l := by
  have hexpands := expands_expandUse u uid
  generalize Expansion.expandUse u uid = result at hexpands ⊢
  cases hexpands with
  | unfilled | unclosed => exact hrest
  | top htop => exact List.forall_mem_append.2 ⟨h.lines hmac (.inl rfl) hargs htop, hrest⟩
  | @block _ _ b htop _ hblock =>
    have hmem {l : Line} (hl : l ∈ b.inside ∨ l = b.closer ∨ l ∈ b.after) : Q l :=
      hrest l ((mem_of_findCloser hblock hl).resolve_left List.not_mem_nil)
    have hbottom : ∀ l ∈ (bottomLines u uid b.closer).1, Q l := by
      rcases bottomLines_cases u uid b.closer with ⟨lines, hfill, heq⟩ | ⟨e, heq⟩
      · rw [heq]
        exact h.lines hmac (.inr rfl) hargs hfill
      · rw [heq]
        exact List.forall_mem_nil _
    intro l hl
    simp only [List.mem_append] at hl
    rcases hl with ((hl | hl) | hl) | hl
    · exact h.lines hmac (.inl rfl) hargs htop l hl
    · exact hmem (.inl hl)
    · exact hbottom l hl
    · exact hmem (.inr (.inr hl))

/-- Without a use the search keeps all lines. -/
theorem eq_of_seek_none {before lines kept : List Line}
    (h : seek macros before lines = (kept, none)) : kept = before.reverse ++ lines := by
  induction lines generalizing before with
  | nil =>
    obtain ⟨rfl, -⟩ := Prod.mk.inj h
    simp
  | cons k rest ih =>
    unfold seek at h
    split at h
    · simp at h
    · simpa using ih h

/-- A use that is found divides the lines. -/
theorem eq_of_seek_some {before lines kept : List Line} {u : Use}
    (h : seek macros before lines = (kept, some u)) :
    before.reverse ++ lines = kept ++ u.line :: u.rest ∧
      Macro.use? macros u.line.code = some (u.mac, u.args) := by
  induction lines generalizing before with
  | nil => simp [seek] at h
  | cons k rest ih =>
    unfold seek at h
    split at h
    · next m args huse =>
      obtain ⟨rfl, hu⟩ := Prod.mk.inj h
      obtain rfl := Option.some.inj hu
      exact ⟨rfl, huse⟩
    · simpa using ih h

/-- What one expansion keeps all expansions keep. -/
theorem Keeps.expandFrom (h : Keeps macros A Q) (left uid : Nat) {lines : List Line}
    (hlines : ∀ l ∈ lines, Q l) : ∀ l ∈ (expandFrom macros left uid lines).1, Q l := by
  induction left generalizing uid lines with
  | zero =>
    unfold Expansion.expandFrom
    split
    · next kept hseek =>
      rw [eq_of_seek_none hseek]
      exact hlines
    · next kept u hseek =>
      rw [← (eq_of_seek_some hseek).1]
      exact hlines
  | succ left ih =>
    unfold Expansion.expandFrom
    split
    · next kept hseek =>
      rw [eq_of_seek_none hseek]
      exact hlines
    · next kept u hseek =>
      obtain ⟨hsplit, huse⟩ := eq_of_seek_some hseek
      -- the lines in front of the use stay, and it is expanded with the lines behind it
      have hparts : ∀ l ∈ kept ++ u.line :: u.rest, Q l := by
        rw [← hsplit]
        exact hlines
      have hline := hparts u.line (List.mem_append_right kept List.mem_cons_self)
      have hrest := fun l hl =>
        hparts l (List.mem_append_right kept (List.mem_cons_of_mem u.line hl))
      intro l hl
      rcases List.mem_append.1 hl with hl | hl
      · exact hparts l (List.mem_append_left _ hl)
      · exact ih (uid + 1) (h.expandUse (Macro.mem_of_use? huse) (h.operands hline huse) hrest uid)
          l hl

end Keeps

end Expansion

/-- Expanded code consists of the characters of the code and of the macros, and of digits. -/
theorem MacroTable.expand_forall {table : MacroTable} {lines : List Line}
    (hdigit : ∀ c, c.isDigit = true → P c) (htable : ∀ m ∈ table.values, m.Has P)
    (hlines : ∀ l ∈ lines, l.Has P) : ∀ l ∈ (table.expand lines).1, l.Has P := by
  have hkeeps : Expansion.Keeps table.values (fun args => ∀ a ∈ args, ∀ c ∈ a.toList, P c)
      (Line.Has P) := by
    refine ⟨fun hl huse => Macro.use?_forall hl huse, fun hm htemplates hargs hfill => ?_⟩
    refine Expansion.fillLines_forall hdigit (fun s hs => htable _ hm s ?_) hargs hfill
    rcases htemplates with rfl | rfl
    · exact List.mem_append_left _ hs
    · exact List.mem_append_right _ hs
  exact hkeeps.expandFrom Expansion.limit 1 hlines

/-- Expanded lines have no comments but those that lines of code had before. -/
theorem MacroTable.comment_of_mem_expand {table : MacroTable} {lines : List Line} {l : Line}
    (hl : l ∈ (table.expand lines).1) : l.comment = none ∨ l ∈ lines := by
  have hkeeps : Expansion.Keeps table.values (fun _ => True)
      (fun l => l.comment = none ∨ l ∈ lines) := by
    refine ⟨fun _ _ => trivial, fun _ _ _ hfill k hk => .inl ?_⟩
    exact Expansion.comment_of_fillLines hfill hk
  exact hkeeps.expandFrom Expansion.limit 1 (fun k hk => .inr hk) l hl

end MacroAsm
