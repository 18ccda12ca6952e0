/-!
# Sorting

What depends on no order of listing is sorted first. The lists are short, and
sorting them is plain recursion on the list: each member is put in front of the
first one that it does not come after. Members that neither comes before the
other keep their places.
-/

namespace SiteMacros

variable {α : Type}

/-- A list with `a` in front of the first member that it is not after. -/
def insertSorted (le : α → α → Bool) (a : α) : List α → List α
  | [] => [a]
  | b :: bs => if le a b then a :: b :: bs else b :: insertSorted le a bs

def sorted (le : α → α → Bool) : List α → List α
  | [] => []
  | a :: as => insertSorted le a (sorted le as)

theorem insertSorted_perm (le : α → α → Bool) (a : α) (bs : List α) :
    (insertSorted le a bs).Perm (a :: bs) := by
  induction bs with
  | nil => exact List.Perm.refl _
  | cons b bs ih =>
      rw [insertSorted]
      split
      · exact List.Perm.refl _
      · exact (ih.cons b).trans (List.Perm.swap a b bs)

/-- Sorting loses nothing and adds nothing. -/
theorem sorted_perm (le : α → α → Bool) (as : List α) : (sorted le as).Perm as := by
  induction as with
  | nil => exact List.Perm.refl _
  | cons a as ih => exact (insertSorted_perm le a _).trans (ih.cons a)

theorem insertSorted_pairwise {le : α → α → Bool} (htotal : ∀ a b, le a b = true ∨ le b a = true)
    (htrans : ∀ a b c, le a b = true → le b c = true → le a c = true) (a : α) {bs : List α}
    (hbs : bs.Pairwise (le · · = true)) : (insertSorted le a bs).Pairwise (le · · = true) := by
  induction bs with
  | nil => exact List.pairwise_singleton _ a
  | cons b bs ih =>
      obtain ⟨hb, htail⟩ := List.pairwise_cons.1 hbs
      rw [insertSorted]
      split
      · next hab =>
          refine List.pairwise_cons.2 ⟨fun c hc => ?_, hbs⟩
          rcases List.mem_cons.1 hc with rfl | hc
          · exact hab
          · exact htrans a b c hab (hb c hc)
      · next hab =>
          refine List.pairwise_cons.2 ⟨fun c hc => ?_, ih htail⟩
          rcases List.mem_cons.1 ((insertSorted_perm le a bs).mem_iff.1 hc) with rfl | hc
          · exact (htotal c b).resolve_left hab
          · exact hb c hc

theorem sorted_pairwise {le : α → α → Bool} (htotal : ∀ a b, le a b = true ∨ le b a = true)
    (htrans : ∀ a b c, le a b = true → le b c = true → le a c = true) (as : List α) :
    (sorted le as).Pairwise (le · · = true) := by
  induction as with
  | nil => exact List.Pairwise.nil
  | cons a as ih => exact insertSorted_pairwise htotal htrans a ih

theorem insertSorted_stable {le : α → α → Bool}
    (htotal : ∀ a b, le a b = true ∨ le b a = true)
    (htrans : ∀ a b c, le a b = true → le b c = true → le a c = true) {R : α → α → Prop} {a : α}
    {bs : List α} (ha : ∀ b ∈ bs, R a b)
    (hbs : bs.Pairwise fun b c => le b c = true ∧ (le c b = true → R b c)) :
    (insertSorted le a bs).Pairwise fun b c => le b c = true ∧ (le c b = true → R b c) := by
  induction bs with
  | nil => exact List.pairwise_singleton _ a
  | cons b bs ih =>
      obtain ⟨hb, htail⟩ := List.pairwise_cons.1 hbs
      rw [insertSorted]
      split
      · next hab =>
          refine List.pairwise_cons.2 ⟨fun c hc => ⟨?_, fun _ => ha c hc⟩, hbs⟩
          rcases List.mem_cons.1 hc with rfl | hc
          · exact hab
          · exact htrans a b c hab (hb c hc).1
      · next hab =>
          refine List.pairwise_cons.2
            ⟨fun c hc => ?_, ih (fun c hc => ha c (List.mem_cons_of_mem b hc)) htail⟩
          rcases List.mem_cons.1 ((insertSorted_perm le a bs).mem_iff.1 hc) with rfl | hc
          · exact ⟨(htotal c b).resolve_left hab, fun h => absurd h hab⟩
          · exact hb c hc

/-- What stands in a relation by its place in the list still does after sorting, as
far as the order leaves places open. -/
theorem sorted_stable {le : α → α → Bool} (htotal : ∀ a b, le a b = true ∨ le b a = true)
    (htrans : ∀ a b c, le a b = true → le b c = true → le a c = true) {R : α → α → Prop}
    {as : List α} (has : as.Pairwise R) :
    (sorted le as).Pairwise fun a b => le a b = true ∧ (le b a = true → R a b) := by
  induction as with
  | nil => exact List.Pairwise.nil
  | cons a as ih =>
      obtain ⟨ha, htail⟩ := List.pairwise_cons.1 has
      exact insertSorted_stable htotal htrans
        (fun b hb => ha b ((sorted_perm le as).mem_iff.1 hb)) (ih htail)

theorem insertSorted_of_le {le : α → α → Bool} {a : α} {bs : List α}
    (h : ∀ b ∈ bs, le a b = true) : insertSorted le a bs = a :: bs := by
  cases bs with
  | nil => rfl
  | cons b bs => rw [insertSorted, if_pos (h b List.mem_cons_self)]

theorem insertSorted_filter {le : α → α → Bool}
    (htrans : ∀ a b c, le a b = true → le b c = true → le a c = true) (p : α → Bool) (a : α)
    {bs : List α} (hbs : bs.Pairwise (le · · = true)) :
    (insertSorted le a bs).filter p =
      if p a then insertSorted le a (bs.filter p) else bs.filter p := by
  induction bs with
  | nil =>
      rw [insertSorted, List.filter_cons, List.filter_nil, insertSorted]
  | cons b bs ih =>
      obtain ⟨hb, htail⟩ := List.pairwise_cons.1 hbs
      rw [insertSorted]
      split
      · next hab =>
          have hle : ∀ c ∈ (b :: bs).filter p, le a c = true := by
            intro c hc
            rcases List.mem_cons.1 (List.mem_filter.1 hc).1 with rfl | hc
            · exact hab
            · exact htrans a b c hab (hb c hc)
          rw [insertSorted_of_le hle, List.filter_cons]
      · next hab =>
          rw [List.filter_cons, List.filter_cons, ih htail]
          by_cases hpb : p b = true
          · rw [if_pos hpb, if_pos hpb, insertSorted, if_neg hab]
            split <;> rfl
          · rw [if_neg hpb, if_neg hpb]

/-- Sorting and leaving out go together. -/
theorem sorted_filter {le : α → α → Bool} (htotal : ∀ a b, le a b = true ∨ le b a = true)
    (htrans : ∀ a b c, le a b = true → le b c = true → le a c = true) (p : α → Bool)
    (as : List α) : sorted le (as.filter p) = (sorted le as).filter p := by
  induction as with
  | nil => rfl
  | cons a as ih =>
      rw [sorted, insertSorted_filter htrans p a (sorted_pairwise htotal htrans as), ← ih,
        List.filter_cons]
      split <;> rfl

theorem insertSorted_map {β : Type} {le : α → α → Bool} {le' : β → β → Bool} {f : α → β}
    (h : ∀ a b, le' (f a) (f b) = le a b) (a : α) (as : List α) :
    insertSorted le' (f a) (as.map f) = (insertSorted le a as).map f := by
  induction as with
  | nil => rfl
  | cons b bs ih =>
      rw [List.map_cons, insertSorted, insertSorted, h, ih]
      split <;> rfl

/-- Sorting looks only at what the order looks at. -/
theorem sorted_map {β : Type} {le : α → α → Bool} {le' : β → β → Bool} {f : α → β}
    (h : ∀ a b, le' (f a) (f b) = le a b) (as : List α) :
    sorted le' (as.map f) = (sorted le as).map f := by
  induction as with
  | nil => rfl
  | cons a as ih => rw [List.map_cons, sorted, sorted, ih, insertSorted_map h]

end SiteMacros
