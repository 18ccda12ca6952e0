import SiteMacros.Path

/-!
# The paths around a path

The parent of a path has the path's components but the last
(`components_parent?`), whatever slashes and dots the path is written with: the
parent is put together again from the pieces of the text, and pieces put together
come apart as they were. So the paths around a path get shorter from the inside
out, and no two of them have the same components
(`ancestors_components_nodup`).
-/

namespace SiteMacros

namespace Text

theorem pieces_eq_splitOn (sep : Char) (cs : List Char) : pieces sep cs = cs.splitOn sep := by
  induction cs with
  | nil => rfl
  | cons c cs ih =>
      rw [pieces, List.splitOn_cons_eq_if_modifyHead, ih]
      by_cases hc : c = sep
      · rw [if_pos hc, if_pos (beq_iff_eq.2 hc)]
      · rw [if_neg hc, if_neg (by rwa [beq_iff_eq])]
        cases hp : cs.splitOn sep with
        | nil => exact absurd hp (List.splitOn_ne_nil sep cs)
        | cons p ps => rfl

theorem sep_not_mem_pieces {sep : Char} {cs p : List Char} (h : p ∈ pieces sep cs) : sep ∉ p := by
  induction cs generalizing p with
  | nil =>
      rw [pieces, List.mem_singleton] at h
      rw [h]
      exact List.not_mem_nil
  | cons c cs ih =>
      rw [pieces] at h
      split at h
      · rcases List.mem_cons.1 h with rfl | h
        · exact List.not_mem_nil
        · exact ih h
      · next hc =>
          split at h
          · rw [List.mem_singleton] at h
            rw [h, List.mem_singleton]
            exact fun heq => hc heq.symm
          · next q qs hq =>
              rcases List.mem_cons.1 h with rfl | h
              · rw [List.mem_cons, not_or]
                exact ⟨fun heq => hc heq.symm, ih (by rw [hq]; exact List.mem_cons_self)⟩
              · exact ih (by rw [hq]; exact List.mem_cons_of_mem q h)

/-- Pieces without the separator come apart as they were put together. -/
theorem pieces_intercalate {sep : Char} {ps : List (List Char)} (hne : ps ≠ [])
    (h : ∀ p ∈ ps, sep ∉ p) : pieces sep ([sep].intercalate ps) = ps := by
  rw [pieces_eq_splitOn, List.splitOn_intercalate sep h hne]

theorem dropEndWhile_append_reverse {α : Type} {p : α → Bool} {xs before : List α} {last : α}
    (h : (dropEndWhile p xs).reverse = last :: before) :
    p last = false ∧ ∃ rest, (∀ x ∈ rest, p x = true) ∧ xs = before.reverse ++ last :: rest := by
  rw [dropEndWhile, List.reverse_reverse] at h
  have hsplit := List.takeWhile_append_dropWhile (p := p) (l := xs.reverse)
  rw [h] at hsplit
  refine ⟨?_, (xs.reverse.takeWhile p).reverse, fun x hx => ?_, ?_⟩
  · have hlast := List.head?_dropWhile_not p xs.reverse
    rw [h] at hlast
    simpa using hlast
  · exact List.all_eq_true.1 List.all_takeWhile x (List.mem_reverse.1 hx)
  · have hrev := congrArg List.reverse hsplit
    rw [List.reverse_reverse, List.reverse_append, List.reverse_cons, List.append_assoc] at hrev
    exact hrev.symm

end Text

namespace Path

theorem inner_fst (q : List Char) : (pieces.inner q).1 = String.ofList q := by
  simp only [pieces.inner]
  repeat' split
  all_goals rfl

theorem map_fst_inner (qs : List (List Char)) :
    (qs.map pieces.inner).map (·.1.toList) = qs := by
  rw [List.map_map]
  refine (List.map_congr_left fun q _ => ?_).trans (List.map_id qs)
  rw [Function.comp_apply, inner_fst, String.toList_ofList, id]

/-! ## Pieces put together -/

theorem pieces_absolute {p : Path} {cs : List Char} (h : p.text.toList = '/' :: cs) :
    p.pieces = (Text.pieces '/' cs).map pieces.inner := by
  unfold pieces
  rw [h]
  rfl

/-- The first piece of a relative path. -/
def first (q : List Char) : String × Option Component :=
  if q = ['.'] then (".", some .here) else pieces.inner q

theorem first_fst (q : List Char) : (first q).1 = String.ofList q := by
  rw [first]
  split
  · next h => rw [h]
  · exact inner_fst q

theorem pieces_relative {p : Path} {q : List Char} {qs : List (List Char)}
    (h : p.isAbsolute = false) (hq : Text.pieces '/' p.text.toList = q :: qs) :
    p.pieces = first q :: qs.map pieces.inner := by
  rw [pieces]
  split
  · next cs hcs =>
      rw [isAbsolute, hcs] at h
      exact nomatch h
  · rw [hq]
    rfl

theorem isAbsolute_iff (p : Path) : p.isAbsolute = true ↔ ∃ cs, p.text.toList = '/' :: cs := by
  rw [isAbsolute]
  split
  · next cs hcs => exact iff_of_true rfl ⟨cs, hcs⟩
  · next hnot => exact iff_of_false Bool.false_ne_true fun ⟨cs, hcs⟩ => hnot cs hcs

theorem toList_text_ofPieces (absolute : Bool) (ps : List (String × Option Component)) :
    (ofPieces absolute ps).text.toList =
      (if absolute then ['/'] else []) ++ ['/'].intercalate (ps.map (·.1.toList)) := by
  rw [ofPieces, String.toList_append, String.toList_intercalate, List.map_map]
  cases absolute <;> rfl

/-- The beginning of an absolute path's pieces, put together. -/
theorem pieces_ofPieces_absolute {p : Path} {ps : List (String × Option Component)} (hne : ps ≠ [])
    (habs : p.isAbsolute = true) (h : ps <+: p.pieces) :
    (ofPieces true ps).isAbsolute = true ∧ (ofPieces true ps).pieces = ps := by
  obtain ⟨cs, hcs⟩ := p.isAbsolute_iff.1 habs
  rw [pieces_absolute hcs] at h
  obtain ⟨qs, hqs, rfl⟩ := List.prefix_map_iff.1 h
  have htext : (ofPieces true (qs.map pieces.inner)).text.toList =
      '/' :: ['/'].intercalate qs := by
    rw [toList_text_ofPieces, map_fst_inner]
    rfl
  refine ⟨(isAbsolute_iff _).2 ⟨_, htext⟩, ?_⟩
  rw [pieces_absolute htext, Text.pieces_intercalate]
  · exact fun hnil => hne (by rw [hnil]; rfl)
  · exact fun q hq => Text.sep_not_mem_pieces (hqs.mem hq)

/-- The beginning of a relative path's pieces, put together. The first piece is
empty only if it is the only one, so that no slash comes to the front. -/
theorem pieces_ofPieces_relative {p : Path} {ps : List (String × Option Component)} (hne : ps ≠ [])
    (habs : p.isAbsolute = false) (h : ps <+: p.pieces) :
    (ofPieces false ps).isAbsolute = false ∧ (ofPieces false ps).pieces = ps := by
  obtain ⟨q, qs, hq⟩ := List.exists_cons_of_ne_nil (Text.pieces_ne_nil '/' p.text.toList)
  rw [pieces_relative habs hq] at h
  obtain ⟨first', rest, rfl⟩ := List.exists_cons_of_ne_nil hne
  obtain ⟨rfl, hrest⟩ := List.cons_prefix_cons.1 h
  obtain ⟨rs, hrs, rfl⟩ := List.prefix_map_iff.1 hrest
  have htexts : (first q :: rs.map pieces.inner).map (·.1.toList) = q :: rs := by
    rw [List.map_cons, first_fst, String.toList_ofList, map_fst_inner]
  have htext : (ofPieces false (first q :: rs.map pieces.inner)).text.toList =
      ['/'].intercalate (q :: rs) := by
    rw [toList_text_ofPieces, htexts]
    rfl
  have hsep : ∀ r ∈ q :: rs, '/' ∉ r := by
    intro r hr
    have hr' : r ∈ Text.pieces '/' p.text.toList := by
      rw [hq]
      rcases List.mem_cons.1 hr with rfl | hr
      · exact List.mem_cons_self
      · exact List.mem_cons_of_mem q (hrs.mem hr)
    exact Text.sep_not_mem_pieces hr'
  have hfront : (ofPieces false (first q :: rs.map pieces.inner)).isAbsolute = false := by
    rw [Bool.eq_false_iff, ne_eq, isAbsolute_iff, htext]
    rintro ⟨cs, hcs⟩
    cases q with
    | cons c q =>
        rw [List.intercalate_cons_cons_left] at hcs
        exact hsep (c :: q) List.mem_cons_self (by simp [(List.cons.inj hcs).1])
    | nil =>
        have hfull : ['/'].intercalate ([] :: qs) = p.text.toList := by
          rw [← hq, Text.pieces_eq_splitOn, List.intercalate_splitOn]
        cases qs with
        | nil =>
            rw [List.prefix_nil.1 hrs, List.intercalate_singleton] at hcs
            exact nomatch hcs
        | cons r qs =>
            rw [List.intercalate_cons_cons] at hfull
            exact Bool.eq_false_iff.1 habs (p.isAbsolute_iff.2 ⟨_, hfull.symm⟩)
  refine ⟨hfront, pieces_relative hfront ?_⟩
  rw [htext, Text.pieces_intercalate (List.cons_ne_nil q rs) hsep]

/-- What the beginning of a path's pieces names. -/
theorem components_ofPieces {p : Path} {ps : List (String × Option Component)}
    (h : ps <+: p.pieces) :
    (ofPieces p.isAbsolute ps).components =
      if p.isAbsolute then .root :: ps.filterMap (·.2) else ps.filterMap (·.2) := by
  by_cases hne : ps = []
  · subst hne
    cases p.isAbsolute <;> decide
  · cases habs : p.isAbsolute with
    | true =>
        obtain ⟨hfront, hpieces⟩ := pieces_ofPieces_absolute hne habs h
        simp only [components, hfront, hpieces]
    | false =>
        obtain ⟨hfront, hpieces⟩ := pieces_ofPieces_relative hne habs h
        simp only [components, hfront, hpieces]

/-! ## Parents -/

theorem filterMap_of_idle {qs : List (String × Option Component)} (h : ∀ q ∈ qs, idle q = true) :
    qs.filterMap (·.2) = [] := by
  refine List.filterMap_eq_nil_iff.2 fun q hq => ?_
  have hidle := h q hq
  rwa [idle, Option.isNone_iff_eq_none] at hidle

/-- The parent has the components but the last. -/
theorem components_parent? {p q : Path} (h : p.parent? = some q) :
    ∃ c, p.components = q.components ++ [c] := by
  rw [parent?] at h
  split at h
  · exact nomatch h
  · next last before hpieces =>
      obtain ⟨hlast, rest, hrest, hfull⟩ := Text.dropEndWhile_append_reverse hpieces
      have hbefore := List.takeWhile_append_dropWhile (p := idle) (l := before)
      have hsplit : p.pieces =
          (before.dropWhile idle).reverse ++ ((before.takeWhile idle).reverse ++ last :: rest) := by
        rw [← List.append_assoc, ← List.reverse_append, hbefore]
        exact hfull
      have hskipped : (before.takeWhile idle).reverse.filterMap (·.2) = [] :=
        filterMap_of_idle fun q hq =>
          List.all_eq_true.1 List.all_takeWhile q (List.mem_reverse.1 hq)
      obtain ⟨text, c?⟩ := last
      cases c? with
      | none => exact nomatch hlast
      | some c =>
          refine ⟨c, ?_⟩
          rw [← Option.some.inj h, components_ofPieces ⟨_, hsplit.symm⟩, components, hsplit,
            List.filterMap_append, List.filterMap_append, hskipped, List.filterMap_cons,
            filterMap_of_idle hrest]
          cases p.isAbsolute <;> rfl

/-- The paths around a path get shorter from the inside out. -/
theorem length_components_ancestors_go (n : Nat) (p : Path) :
    (ancestors.go n p).Pairwise fun a b => b.components.length < a.components.length := by
  induction n generalizing p with
  | zero => exact List.Pairwise.nil
  | succ n ih =>
      rw [ancestors.go]
      cases hp : p.parent? with
      | none => exact List.pairwise_singleton _ _
      | some q =>
          obtain ⟨c, hc⟩ := components_parent? hp
          have hq : q.components.length < p.components.length := by
            rw [hc, List.length_append]
            exact Nat.lt_succ_self _
          refine List.pairwise_cons.2 ⟨fun a ha => ?_, ih q⟩
          cases n with
          | zero => exact absurd ha List.not_mem_nil
          | succ n =>
              have hrest := ih q
              dsimp only at ha
              rw [ancestors.go] at ha hrest
              rcases List.mem_cons.1 ha with rfl | ha
              · exact hq
              · exact Nat.lt_trans ((List.pairwise_cons.1 hrest).1 a ha) hq

/-- No two of the paths around a path have the same components. -/
theorem ancestors_components_nodup (p : Path) : (p.ancestors.map components).Nodup := by
  rw [List.Nodup, List.pairwise_map]
  refine (length_components_ancestors_go _ p).imp fun {a b} hlt heq => ?_
  rw [heq] at hlt
  omega

end Path

end SiteMacros
