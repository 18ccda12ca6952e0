import SiteMacros.Proofs.Removals

/-!
# What is there, and what is there no more

A path is found only if the paths that it begins with are found too
(`exists?_of_components_begin`). So where nothing is found by a path, in whatever spelling, nothing
is found by a path that goes on from it.

A removal adds nothing to the files. What is found after it was found before (`Reduced`), by
every path, however it is written, and whether the removal has gone through or not. The same
holds of all that noting changes does to the files (`noteChanges_reduced`).
-/

namespace SiteMacros

namespace FileTree

variable {t t' : FileTree} {p q : Path} {here dest ns : List String}

/-! ## The beginnings of a path -/

/-- The pieces of a path are walked one after another, from the root if it starts there. -/
theorem steps_eq_pieces (hp : p.text ≠ "") :
    steps p = (if p.isAbsolute then [""] else []) ++ p.pieces.map (·.1) := by
  rw [steps_eq hp]
  cases habs : p.isAbsolute with
  | true =>
      obtain ⟨cs, hcs⟩ := p.isAbsolute_iff.1 habs
      rw [hcs, Text.pieces, if_pos rfl, if_pos rfl, Path.pieces_absolute hcs, List.map_map,
        List.map_cons]
      exact congrArg (_ :: ·) (List.map_congr_left fun q _ => (Path.inner_fst q).symm)
  | false =>
      obtain ⟨q, qs, hq⟩ := List.exists_cons_of_ne_nil (Text.pieces_ne_nil '/' p.text.toList)
      rw [hq, Path.pieces_relative habs hq, List.map_cons, List.map_cons, Path.first_fst,
        List.map_map, if_neg Bool.false_ne_true, List.nil_append]
      exact congrArg (_ :: ·) (List.map_congr_left fun q _ => (Path.inner_fst q).symm)

theorem text_ne_empty_of_exists? (h : t.exists? p = true) : p.text ≠ "" := by
  intro hempty
  obtain ⟨text⟩ := p
  cases hempty
  cases h

/-- The walk along the first pieces of a path is the beginning of the walk along it. -/
theorem steps_ofPieces_begin {ps : List (String × Option Component)} (hp : p.text ≠ "")
    (hps : ps <+: p.pieces) (hne : ps ≠ [])
    (hq : (Path.ofPieces p.isAbsolute ps).text ≠ "") :
    steps (Path.ofPieces p.isAbsolute ps) <+: steps p := by
  have hpieces : (Path.ofPieces p.isAbsolute ps).isAbsolute = p.isAbsolute ∧
      (Path.ofPieces p.isAbsolute ps).pieces = ps := by
    cases habs : p.isAbsolute with
    | true => exact Path.pieces_ofPieces_absolute hne habs hps
    | false => exact Path.pieces_ofPieces_relative hne habs hps
  rw [steps_eq_pieces hp, steps_eq_pieces hq, hpieces.1, hpieces.2]
  exact (List.prefix_append_right_inj _).2 (hps.map _)

theorem exists?_of_steps_begin (h : t.exists? p = true) (hq : q.text ≠ "")
    (hsteps : steps q <+: steps p) : t.exists? q = true := by
  obtain ⟨dest, hdest⟩ := (exists?_iff (text_ne_empty_of_exists? h)).1 h
  obtain ⟨rest, hrest⟩ := hsteps
  rw [reach, ← hrest, walk_append] at hdest
  obtain ⟨here, hhere, -⟩ := Expansion.exists_of_bind_eq_ok hdest
  exact (exists?_iff hq).2 ⟨here, hhere⟩

/-- The root is found if an absolute path is. -/
theorem exists?_root (hp : p.isAbsolute = true) (h : t.exists? p = true) :
    t.exists? ⟨"/"⟩ = true := by
  have htext := text_ne_empty_of_exists? h
  obtain ⟨dest, hdest⟩ := (exists?_iff htext).1 h
  rw [reach, steps_eq_pieces htext, if_pos hp, List.singleton_append, walk] at hdest
  split at hdest
  · cases hdest
  · cases hdest
  · next es hes =>
      have hsteps : steps ⟨"/"⟩ = [""] ++ [""] := by decide
      refine (exists?_iff (by decide)).2 ⟨[], ?_⟩
      rw [reach, hsteps, walk_append, walk_idle hes (.inl rfl)]
      exact walk_idle hes (.inl rfl)

/-- What a path begins with is found if the path is. -/
theorem exists?_of_components_begin (h : t.exists? p = true) {cs : List Component}
    (hcs : cs <+: p.components) (hne : cs ≠ []) :
    ∃ q : Path, q.components = cs ∧ t.exists? q = true := by
  have hbegin : ∃ ps, ps <+: p.pieces ∧
      (if p.isAbsolute then .root :: ps.filterMap (·.2) else ps.filterMap (·.2)) = cs := by
    rw [Path.components] at hcs
    cases habs : p.isAbsolute with
    | true =>
        rw [habs, if_pos rfl] at hcs
        obtain ⟨c, ds, rfl⟩ := List.exists_cons_of_ne_nil hne
        obtain ⟨rfl, hds⟩ := List.cons_prefix_cons.1 hcs
        obtain ⟨ps, hps, rfl⟩ := List.prefix_filterMap_iff.1 hds
        exact ⟨ps, hps, rfl⟩
    | false =>
        rw [habs, if_neg Bool.false_ne_true] at hcs
        obtain ⟨ps, hps, rfl⟩ := List.prefix_filterMap_iff.1 hcs
        exact ⟨ps, hps, rfl⟩
  obtain ⟨ps, hps, rfl⟩ := hbegin
  rw [← Path.components_ofPieces hps] at hne ⊢
  have hq : (Path.ofPieces p.isAbsolute ps).text ≠ "" := by
    intro hempty
    have htext : Path.ofPieces p.isAbsolute ps = ⟨""⟩ := congrArg Path.mk hempty
    rw [htext] at hne
    exact hne (by decide)
  refine ⟨_, rfl, ?_⟩
  by_cases hempty : ps = []
  · subst hempty
    cases habs : p.isAbsolute with
    | true => exact exists?_root habs h
    | false =>
        rw [habs] at hq
        exact absurd rfl hq
  · have hp := text_ne_empty_of_exists? h
    exact exists?_of_steps_begin h hq (steps_ofPieces_begin hp hps hempty hq)

/-- There is something at each place that a path which is found passes through. -/
theorem exists_of_passesThrough (hp : p.isAbsolute = true) (h : t.exists? p = true)
    (hns : p.PassesThrough ns) : ∃ node, t.bareAt? ns = some node := by
  obtain ⟨cs, hcs, rfl⟩ := hns
  by_cases hne : cs = []
  · subst hne
    exact ⟨_, rfl⟩
  · obtain ⟨q, rfl, hq⟩ := exists?_of_components_begin h hcs hne
    have habs : q.isAbsolute = true := by
      rw [Path.components_absolute hp] at hcs
      rcases List.prefix_cons_iff.1 hcs with hnil | ⟨ds, hds, -⟩
      · exact absurd hnil hne
      · exact Path.isAbsolute_iff_components.2 ⟨ds, hds⟩
    rw [exists?] at hq
    split at hq
    · next node hfind =>
        have hnode := get?_of_find habs hfind
        rw [Path.destination] at hnode
        rw [bareAt?, hnode]
        exact ⟨_, rfl⟩
    · cases hq

/-! ## Files without some of what was there -/

/-- What is in the tree `t'` is in the tree `t` too. -/
structure Reduced (t t' : FileTree) : Prop where
  part : ∀ ns node, t'.bareAt? ns = some node → t.bareAt? ns = some node
  sound : t.Sound → t'.Sound

namespace Reduced

theorem refl (t : FileTree) : Reduced t t :=
  ⟨fun _ _ => id, id⟩

theorem trans {t'' : FileTree} (h : Reduced t t') (h' : Reduced t' t'') : Reduced t t'' :=
  ⟨fun ns node hnode => h.part ns node (h'.part ns node hnode), fun hsound =>
    h'.sound (h.sound hsound)⟩

theorem vacant (h : Reduced t t') (hnone : t.bareAt? ns = none) : t'.bareAt? ns = none := by
  cases hnode : t'.bareAt? ns with
  | none => rfl
  | some node =>
      rw [h.part ns node hnode] at hnone
      cases hnone

theorem get? (h : Reduced t t') {node : FileTree} (hnode : t'.get? ns = some node) :
    ∃ node', t.get? ns = some node' ∧ node'.bare = node.bare := by
  have hbare := h.part ns node.bare (by rw [bareAt?, hnode]; rfl)
  rw [bareAt?, Option.map_eq_some_iff] at hbare
  exact hbare

theorem walk (h : Reduced t t') {pieces : List String} (hwalk : t'.walk here pieces = .ok dest) :
    t.walk here pieces = .ok dest := by
  induction pieces generalizing here with
  | nil => exact hwalk
  | cons piece rest ih =>
      rw [FileTree.walk] at hwalk
      split at hwalk
      · cases hwalk
      · cases hwalk
      · next es hes =>
          obtain ⟨node, hnode, hbare⟩ := h.get? hes
          cases node with
          | file text => cases hbare
          | dir fs =>
              rw [FileTree.walk, hnode]
              dsimp only
              split at hwalk
              · next hidle => rw [if_pos hidle, ih hwalk]
              · next hidle =>
                  rw [if_neg hidle]
                  split at hwalk
                  · next hup => rw [if_pos hup, ih hwalk]
                  · next hup =>
                      rw [if_neg hup]
                      split at hwalk
                      · cases hwalk
                      · next node hentry =>
                          obtain ⟨node', hentry', -⟩ := h.get? hentry
                          rw [hentry']
                          exact ih hwalk

theorem find (h : Reduced t t') {node : FileTree} (hfind : t'.find p = .ok node) :
    ∃ node', t.find p = .ok node' ∧ node'.bare = node.bare := by
  obtain ⟨hp, here, hreach, hnode⟩ := reach_of_find hfind
  obtain ⟨node', hnode', hbare⟩ := h.get? hnode
  exact ⟨node', find_of_reach hp (h.walk hreach) hnode', hbare⟩

/-- What is found was found before. -/
theorem exists? (h : Reduced t t') (hp : t'.exists? p = true) : t.exists? p = true := by
  rw [FileTree.exists?] at hp ⊢
  split at hp
  · next node hfind =>
      obtain ⟨node', hfind', -⟩ := h.find hfind
      rw [hfind']
  · cases hp

end Reduced

/-! ## Removals -/

theorem reduced_empty {es : List (String × FileTree)} (h : t.get? here = some (.dir es)) :
    Reduced t (t.set here empty) := by
  refine ⟨fun ns node hnode => ?_, fun hsound => hsound.set sound_empty (hsound.isName h)⟩
  by_cases hhere : here = []
  · subst hhere
    cases h
    change empty.bareAt? ns = some node at hnode
    by_cases hns : ns = []
    · subst hns
      exact hnode
    · rw [bareAt?_empty_append hns] at hnode
      cases hnode
  · rw [bareAt?_set_empty hhere h] at hnode
    split at hnode
    · cases hnode
    · exact hnode

theorem reduced_erase (h : (t.get? here).isSome = true) : Reduced t (t.erase here) := by
  refine ⟨fun ns node hnode => ?_, Sound.erase⟩
  by_cases hhere : here = []
  · subst hhere
    exact hnode
  · rw [bareAt?_erase hhere h] at hnode
    split at hnode
    · cases hnode
    · exact hnode

theorem isSome_of_address (h : t.address p = .ok here) : (t.get? here).isSome = true := by
  rw [address] at h
  split at h
  · cases h
  · exact isSome_of_walk h rfl

theorem reduced_removeTree (t : FileTree) (p : Path) : Reduced t (t.removeTree p).1 := by
  rw [removeTree]
  split
  · exact .refl t
  · next here _ =>
      split
      · exact .refl t
      · exact .refl t
      · next es hes =>
          have hemptied := reduced_empty hes
          dsimp only
          split
          · exact hemptied
          · next home hhome =>
              have herased := hemptied.trans (reduced_erase (isSome_of_address hhome))
              split
              · exact hemptied
              · exact hemptied
              · exact herased
              · exact hemptied

theorem reduced_removeFile (h : t.removeFile p = .ok t') : Reduced t t' := by
  obtain ⟨here, hhere, h⟩ := Expansion.exists_of_bind_eq_ok h
  split at h
  · cases h
    exact reduced_erase (isSome_of_address hhere)
  · cases h
  · cases h

end FileTree

open FileTree (Reduced)

theorem OnDisk.reduced_discard (q : Path) (t : FileTree) :
    Reduced t ((discard q).run t).2 := by
  rw [run_discard]
  split
  · exact FileTree.reduced_removeTree t q
  · rw [attempt]
    split
    · next t' h => exact FileTree.reduced_removeFile h
    · exact .refl t

namespace Session

theorem heed_reduced (s : Session) (t : FileTree) (c : Path × PathChange) :
    Reduced t (s.heed t c).1 := by
  rw [heed]
  split
  · rw [forget_tree]
    unfold removeOutput
    split
    · exact OnDisk.reduced_discard _ t
    · exact .refl t
  · exact .refl t

/-- Nothing comes to be there while changes are noted. -/
theorem noteChanges_reduced (changes : List (Path × PathChange)) (plan : Plan) (s : Session)
    (t : FileTree) : Reduced t (noteChanges changes plan s t).1 := by
  induction changes generalizing plan s t with
  | nil => exact .refl t
  | cons c changes ih =>
      rw [noteChanges_cons]
      exact (heed_reduced s t c).trans (ih _ _ _)

end Session

end SiteMacros
