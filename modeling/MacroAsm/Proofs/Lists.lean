set_option autoImplicit false

/-! # Lists

Facts about lists that several parts of the theory use: lists that are read element by element, lists
with equal images, folds that pass over some elements, lists with separators in between, and lists
that are equal but for elements put in between. -/

namespace MacroAsm

/-- Reading a list reads each of its elements. -/
theorem mapM_eq_ok_iff {ε α β : Type} {f : α → Except ε β} {l : List α} {r : List β} :
    l.mapM f = .ok r ↔ l.map f = r.map .ok := by
  induction l generalizing r with
  | nil => cases r <;> simp [pure, Except.pure]
  | cons a l ih =>
    rw [List.mapM_cons, List.map_cons]
    constructor
    · intro h
      cases ha : f a with
      | error e => simp [ha, bind, Except.bind] at h
      | ok b =>
        cases hl : l.mapM f with
        | error e => simp [ha, hl, bind, Except.bind] at h
        | ok bs =>
          simp only [ha, hl, bind, Except.bind, pure, Except.pure, Except.ok.injEq] at h
          rw [← h, List.map_cons, ih.1 hl]
    · intro h
      cases r with
      | nil => simp at h
      | cons c r =>
        rw [List.map_cons] at h
        have hhead := List.head_eq_of_cons_eq h
        have htail := ih.2 (List.tail_eq_of_cons_eq h)
        simp only [hhead, htail, bind, Except.bind, pure, Except.pure]

/-- A list can be read when each of its elements can. -/
theorem exists_mapM_eq_ok {ε α β : Type} {f : α → Except ε β} {l : List α}
    (h : ∀ a ∈ l, ∃ b, f a = .ok b) : ∃ r, l.mapM f = .ok r := by
  simp only [mapM_eq_ok_iff]
  induction l with
  | nil => exact ⟨[], rfl⟩
  | cons a l ih =>
    obtain ⟨b, hb⟩ := h a List.mem_cons_self
    obtain ⟨r, hr⟩ := ih fun x hx => h x (List.mem_cons_of_mem a hx)
    exact ⟨b :: r, by rw [List.map_cons, List.map_cons, hb, hr]⟩

/-- A last element that occurs in front is not listed again. -/
theorem eraseDups_concat {α : Type} [BEq α] [LawfulBEq α] (l : List α) (a : α) :
    (l ++ [a]).eraseDups = if a ∈ l then l.eraseDups else l.eraseDups ++ [a] := by
  rw [List.eraseDups_append, List.removeAll]
  split
  · next h => simp [h]
  · next h => simp [h, List.eraseDups_cons]

/-- Lists with equal images have equal images in each place. -/
theorem eq_of_mem_zip {α β γ : Type} {f : α → γ} {g : β → γ} {l : List α} {m : List β}
    (h : l.map f = m.map g) {x : α × β} (hx : x ∈ l.zip m) : f x.1 = g x.2 := by
  induction l generalizing m with
  | nil => simp at hx
  | cons a l ih =>
    cases m with
    | nil => simp at hx
    | cons b m =>
      rw [List.map_cons, List.map_cons] at h
      rcases List.mem_cons.1 hx with rfl | hx
      · exact List.head_eq_of_cons_eq h
      · exact ih (List.tail_eq_of_cons_eq h) hx

/-- Elements that leave a state as it is may be passed over. -/
theorem foldl_eq_self {α σ : Type} {f : σ → α → σ} {s : σ} {l : List α}
    (h : ∀ a ∈ l, f s a = s) : l.foldl f s = s := by
  induction l with
  | nil => rfl
  | cons a l ih =>
    rw [List.foldl_cons, h a List.mem_cons_self]
    exact ih fun b hb => h b (List.mem_cons_of_mem a hb)

/-- A first element, elements that are passed over behind it, and a last one. -/
theorem foldl_block {α σ : Type} {f : σ → α → σ} {s : σ} {a b : α} {l : List α}
    (h : ∀ c ∈ l, f (f s a) c = f s a) : (a :: (l ++ [b])).foldl f s = f (f s a) b := by
  rw [List.foldl_cons, List.foldl_append, foldl_eq_self h]
  rfl

/-- A run of a class ends in front of an element that is not in it. -/
theorem takeWhile_append_of_head? {α : Type} {p : α → Bool} {l m : List α}
    (hl : ∀ a ∈ l, p a = true) (hm : ∀ a ∈ m.head?, p a = false) : (l ++ m).takeWhile p = l := by
  rw [List.takeWhile_append_of_pos hl]
  cases m with
  | nil => simp
  | cons a m => simp [hm a rfl]

/-- That element is the first one that is left. -/
theorem dropWhile_append_of_head? {α : Type} {p : α → Bool} {l m : List α}
    (hl : ∀ a ∈ l, p a = true) (hm : ∀ a ∈ m.head?, p a = false) : (l ++ m).dropWhile p = m := by
  rw [List.dropWhile_append_of_pos hl]
  cases m with
  | nil => simp
  | cons a m => simp [hm a rfl]

/-- Every list is a run of a class and a list that does not begin with an element of it. -/
theorem exists_eq_run_append {α : Type} (p : α → Bool) (l : List α) :
    ∃ run rest, l = run ++ rest ∧ (∀ a ∈ run, p a = true) ∧ ∀ a ∈ rest.head?, p a = false := by
  refine ⟨l.takeWhile p, l.dropWhile p, List.takeWhile_append_dropWhile.symm,
    List.all_eq_true.1 List.all_takeWhile, fun a ha => ?_⟩
  have hhead := List.head?_dropWhile_not p l
  rw [Option.mem_def.1 ha] at hhead
  exact hhead

/-- What stands between separators stands in the whole. -/
theorem mem_intercalate_of_mem {sep p : List Char} {ps : List (List Char)} (hp : p ∈ ps) {c : Char}
    (hc : c ∈ p) : c ∈ sep.intercalate ps := by
  induction ps with
  | nil => simp at hp
  | cons q ps ih =>
    cases ps with
    | nil =>
      obtain rfl := List.mem_singleton.1 hp
      simpa using hc
    | cons r ps =>
      rw [List.intercalate_cons_cons]
      rcases List.mem_cons.1 hp with rfl | hp
      · simp [hc]
      · exact List.mem_append_right _ (ih hp)

/-- What stands in the whole stands between separators, or in one of them. -/
theorem exists_of_mem_intercalate {sep : List Char} {ps : List (List Char)} {c : Char}
    (hc : c ∈ sep.intercalate ps) : c ∈ sep ∨ ∃ p ∈ ps, c ∈ p := by
  induction ps with
  | nil => simp at hc
  | cons q ps ih =>
    cases ps with
    | nil => exact .inr ⟨q, List.mem_cons_self, by simpa using hc⟩
    | cons r ps =>
      rw [List.intercalate_cons_cons, List.mem_append, List.mem_append] at hc
      rcases hc with (hc | hc) | hc
      · exact .inr ⟨q, List.mem_cons_self, hc⟩
      · exact .inl hc
      · rcases ih hc with h | ⟨p, hp, hcp⟩
        · exact .inl h
        · exact .inr ⟨p, List.mem_cons_of_mem q hp, hcp⟩

/-! ## Elements put in between -/

/-- The second list is the first one with some elements of a kind put in between. -/
inductive Padded {α : Type} (P : α → Prop) : List α → List α → Prop where
  | nil : Padded P [] []
  | cons (a : α) {as bs : List α} : Padded P as bs → Padded P (a :: as) (a :: bs)
  | pad {b : α} {as bs : List α} : P b → Padded P as bs → Padded P as (b :: bs)

namespace Padded

variable {α β : Type} {P : α → Prop} {as bs cs ds : List α}

theorem refl (as : List α) : Padded P as as := by
  induction as with
  | nil => exact .nil
  | cons a as ih => exact .cons a ih

theorem append (h : Padded P as bs) (h' : Padded P cs ds) : Padded P (as ++ cs) (bs ++ ds) := by
  induction h with
  | nil => exact h'
  | cons a _ ih => exact .cons a ih
  | pad hb _ ih => exact .pad hb ih

theorem concat (h : Padded P as bs) {b : α} (hb : P b) : Padded P as (bs ++ [b]) := by
  rw [← List.append_nil as]
  exact h.append (.pad hb .nil)

theorem reverse (h : Padded P as bs) : Padded P as.reverse bs.reverse := by
  induction h with
  | nil => exact .nil
  | cons a _ ih =>
    rw [List.reverse_cons, List.reverse_cons]
    exact ih.append (.refl [a])
  | pad hb _ ih =>
    rw [List.reverse_cons]
    exact ih.concat hb

/-- What is made of the elements that were put in between decides whether they count. -/
theorem filterMap_eq {f : α → Option β} (h : Padded P as bs) (hf : ∀ b, P b → f b = none) :
    bs.filterMap f = as.filterMap f := by
  induction h with
  | nil => rfl
  | cons a _ ih => rw [List.filterMap_cons, List.filterMap_cons, ih]
  | pad hb _ ih => rw [List.filterMap_cons_none (hf _ hb), ih]

theorem foldl_eq {σ : Type} {f : σ → α → σ} (h : Padded P as bs) (hf : ∀ s b, P b → f s b = s)
    (s : σ) : bs.foldl f s = as.foldl f s := by
  induction h generalizing s with
  | nil => rfl
  | cons a _ ih => exact ih (f s a)
  | pad hb _ ih => rw [List.foldl_cons, hf s _ hb, ih]

end Padded

end MacroAsm
