import SiteMacros.Proofs.PageTranslations
import SiteMacros.Proofs.WrittenPaths

/-!
# Searches from their base

A search starts at the root of the file system. The base of its pattern is escaped, so it is
walked piece by piece, and what the rest of the pattern matches is looked for from there
(`walkSteps_escaped`). The path that the search has come to then need not be spelled like the
base, which may end in slashes or have several between two names; but it has the same
components, and the same directory is there (`find_trodden`).

That the walk comes to the base is not certain either. If it does not then nothing is found,
and nothing would be found from there: whatever is left of a pattern begins with a step, and
a step from where nothing is leads nowhere.
-/

namespace SiteMacros

open FileTree (stepOf)

namespace Glob

variable {t : FileTree} {p : Path}

/-- An escaped piece leads to itself only. -/
theorem goes_escapedStep (q : List Char) : (escapedStep q).Goes (String.ofList q) := by
  have hspells : Spells (q.flatMap escapeChar) q := by
    simpa only [List.append_nil] using Spells.escape_append q .nil
  obtain ⟨s, hs, -, hgoes⟩ := hspells.goes
  rw [compile, String.toList_ofList, tokens_escape] at hs
  cases hs
  exact hgoes

/-- Of steps that are put together one is left. -/
theorem collapse_ne_nil {steps : List Step} (h : steps ≠ []) : collapse steps ≠ [] := by
  fun_induction collapse steps with
  | case1 rest ih => exact ih (List.cons_ne_nil _ _)
  | case2 s rest _ ih => exact List.cons_ne_nil _ _
  | case3 => exact absurd rfl h

/-- From where nothing is no step leads anywhere. -/
theorem walkSteps_of_not_exists (hp : p.text ≠ "") (h : t.exists? p = false) {s : Step}
    (hs : ∀ name, s = .literal name → '/' ∉ name.toList) (rest : List Step) :
    walkSteps t (s :: rest) p = [] := by
  have hfind : ∀ node, t.find p ≠ .ok node := by
    intro node hnode
    rw [FileTree.exists?, hnode] at h
    cases h
  cases s with
  | literal name =>
      rw [walkSteps_literal (.inl hp),
        exists?_join_of_not_dir hp (hs name rfl) fun es hes => hfind _ hes]
      rfl
  | wild ts =>
      rw [walkSteps]
      split
      · next es hes => exact absurd hes (hfind _)
      · rfl
  | deep =>
      cases rest <;> rw [walkSteps] <;> split
      · next node hnode => exact absurd hnode (hfind node)
      · rfl
      · next node hnode => exact absurd hnode (hfind node)
      · rfl

/-- Escaped pieces are walked one after another, and the rest of the pattern from where they
lead. -/
theorem walkSteps_escaped (hsound : t.Sound) (hp : p.text ≠ "") {qs : List (List Char)}
    (hslash : ∀ w ∈ qs.map String.ofList, '/' ∉ w.toList) {s : Step}
    (hs : ∀ name, s = .literal name → '/' ∉ name.toList) (rest : List Step) :
    walkSteps t (qs.map escapedStep ++ s :: rest) p =
      walkSteps t (s :: rest) ((qs.map String.ofList).foldl Path.join p) := by
  induction qs generalizing p with
  | nil => rfl
  | cons q qs ih =>
      rw [List.map_cons] at hslash
      obtain ⟨hq, hqs⟩ := List.forall_mem_cons.1 hslash
      have hjoin := FileTree.text_join_ne_empty hq (.inl hp)
      rw [List.map_cons, List.cons_append, walkSteps_goes hsound hp (goes_escapedStep q) hq,
        List.map_cons, List.foldl_cons]
      split
      · exact ih hjoin hqs
      · next hnothing =>
          have hbehind : t.exists?
              ((qs.map String.ofList).foldl Path.join (p.join (String.ofList q))) = false := by
            rw [← Bool.not_eq_true]
            exact fun hthere => hnothing (exists?_of_foldl_join hjoin hqs hthere)
          rw [walkSteps_of_not_exists (text_foldl_join_ne_empty hjoin hqs) hbehind hs]

end Glob

/-! ## The base, piece by piece -/

/-- The path as a search comes to it: from the root, one piece after another, without the
slashes at its end. -/
def Path.trodden (p : Path) : Path :=
  ((Text.pieces '/' (Text.dropEndWhile (· == '/') (p.text.toList.drop 1))).map
    String.ofList).foldl Path.join ⟨"/"⟩

namespace Path

variable {p : Path}

theorem slash_not_mem_pieces {cs : List Char} :
    ∀ w ∈ (Text.pieces '/' cs).map String.ofList, '/' ∉ w.toList := by
  intro w hw
  obtain ⟨piece, hpiece, rfl⟩ := List.mem_map.1 hw
  rw [String.toList_ofList]
  exact Text.sep_not_mem_pieces hpiece

theorem text_trodden_ne_empty (p : Path) : p.trodden.text ≠ "" :=
  Glob.text_foldl_join_ne_empty (by decide) slash_not_mem_pieces

theorem components_trodden (h : p.isAbsolute = true) : p.trodden.components = p.components := by
  obtain ⟨cs, hcs⟩ := p.isAbsolute_iff.1 h
  rw [trodden, Glob.components_foldl_join (by decide) slash_not_mem_pieces,
    components_absolute_steps h, hcs, List.drop_one, List.tail_cons, ← stepsOf_eq,
    stepsOf_dropEndWhile, show stepsOf ('/' :: cs) = stepsOf cs from stepsOf_slash cs]
  rfl

end Path

namespace FileTree

variable {t : FileTree} {p : Path}

/-- Slashes at the end of a path ask for a directory, and change nothing if there is one. -/
theorem walk_dropEndWhile (home : List String) (es : List (String × FileTree)) (cs : List Char) :
    (t.walk [] ((Text.pieces '/' (Text.dropEndWhile (· == '/') cs)).map String.ofList) = .ok home ∧
        t.get? home = some (.dir es)) ↔
      t.walk [] ((Text.pieces '/' cs).map String.ofList) = .ok home ∧
        t.get? home = some (.dir es) := by
  induction cs using List.reverseRecOn with
  | nil => rfl
  | append_singleton cs c ih =>
      rw [Text.dropEndWhile_concat]
      split
      · next hslash =>
          rw [beq_iff_eq] at hslash
          subst hslash
          rw [ih, Text.pieces_append_sep, List.map_append, walk_append]
          refine and_congr_left fun hes => ?_
          cases hwalk : t.walk [] ((Text.pieces '/' cs).map String.ofList) with
          | error e => exact iff_of_false nofun nofun
          | ok here =>
              show _ ↔ t.walk here [""] = _
              constructor
              · rintro h
                cases h
                exact walk_idle hes (.inl rfl)
              · intro h
                -- an empty piece stays where it is
                rw [← h, walk]
                split
                · next hnone =>
                    rw [walk, hnone] at h
                    cases h
                · next text htext =>
                    rw [walk, htext] at h
                    cases h
                · rfl
      · rfl

theorem find_eq_dir_iff {q : Path} (hq : q.text ≠ "") {es : List (String × FileTree)} :
    t.find q = .ok (.dir es) ↔ ∃ home, t.reach q = .ok home ∧ t.get? home = some (.dir es) :=
  ⟨fun h => (reach_of_find h).2, fun ⟨_, hreach, hes⟩ => find_of_reach hq hreach hes⟩

/-- The same directory is there. -/
theorem find_trodden (h : p.isAbsolute = true) {es : List (String × FileTree)} :
    t.find p.trodden = .ok (.dir es) ↔ t.find p = .ok (.dir es) := by
  obtain ⟨cs, hcs⟩ := p.isAbsolute_iff.1 h
  have hp : p.text ≠ "" := by
    intro hempty
    rw [hempty] at hcs
    cases hcs
  rw [find_eq_dir_iff p.text_trodden_ne_empty, find_eq_dir_iff hp]
  cases t with
  | file text =>
      -- nothing is below a root that is a file
      refine iff_of_false ?_ ?_
      · rintro ⟨home, hreach, -⟩
        rw [Path.trodden, Glob.reach_foldl_join (by decide) Path.slash_not_mem_pieces] at hreach
        cases hreach
      · rintro ⟨home, hreach, -⟩
        rw [reach, steps_eq hp, hcs, Text.pieces, if_pos rfl] at hreach
        cases hreach
  | dir entries =>
      refine exists_congr fun home => ?_
      have hreach : (dir entries).reach p =
          (dir entries).walk [] ((Text.pieces '/' cs).map String.ofList) := by
        rw [reach, steps_eq hp, hcs, Text.pieces, if_pos rfl]
        rfl
      have htrodden : (dir entries).reach p.trodden = (dir entries).walk []
          ((Text.pieces '/' (Text.dropEndWhile (· == '/') cs)).map String.ofList) := by
        rw [Path.trodden, Glob.reach_foldl_join (by decide) Path.slash_not_mem_pieces, hcs]
        rfl
      rw [htrodden, hreach, walk_dropEndWhile]

end FileTree

namespace ImportPattern

variable {t : FileTree} {p : ImportPattern}

/-- The text that is searched with ends in a slash if the rest of the pattern does. -/
theorem endsWith_globText (hrest : p.rest ≠ "") :
    Text.endsWith "/" p.globText = Text.endsWith "/" p.rest := by
  obtain ⟨c, cs, hcs⟩ := List.exists_cons_of_ne_nil
    (fun hnil => hrest (String.toList_eq_nil_iff.1 hnil) : p.rest.toList ≠ [])
  rw [Bool.eq_iff_iff, Text.endsWith_slash, Text.endsWith_slash, toList_globText hrest, hcs,
    List.getLast?_append_cons, List.getLast?_cons_cons]

/-- A search finds what the rest of its pattern leads to from the base. -/
theorem findFiles_from_base (hsound : t.Sound) (hbase : p.base.isAbsolute = true)
    (hrest : p.rest ≠ "") {files : List Path} (h : p.findFiles t = .ok files) {s : Glob.Step}
    {ss : List Glob.Step} (hss : p.RestSteps (s :: ss)) :
    files = sortPaths ((Glob.walkSteps t (Glob.collapse (s :: ss)) p.base.trodden).filter
      (p.accepts t)) := by
  obtain ⟨cs, hcs⟩ := p.base.isAbsolute_iff.1 hbase
  rw [findFiles_eq] at h
  cases hsteps : Glob.stepsOf p.globText with
  | error e =>
      rw [hsteps] at h
      cases h
  | ok steps =>
      rw [hsteps] at h
      obtain ⟨hstarts, ss', hss', rfl⟩ := stepsOf_absolute hrest hcs hsteps
      obtain rfl : ss' = s :: ss :=
        List.map_inj_right (fun _ _ h => Except.ok.inj h) |>.1 (hss'.symm.trans hss)
      obtain ⟨first, rest, hcollapse⟩ :=
        List.exists_cons_of_ne_nil (Glob.collapse_ne_nil (List.cons_ne_nil s ss))
      have hslash : ∀ name, first = .literal name → '/' ∉ name.toList := by
        rintro name rfl
        refine Glob.slash_not_mem_of_literal hsteps (List.mem_append_right _ ?_)
        rw [hcollapse]
        exact List.mem_cons_self
      dsimp only at h
      rw [hstarts, if_pos rfl] at h
      rw [← Except.ok.inj h, hcollapse, Path.trodden, hcs, List.drop_one, List.tail_cons]
      split
      · next hnil =>
          rw [hnil]
          rfl
      · rw [Glob.walkSteps_escaped hsound (by decide) Path.slash_not_mem_pieces hslash]

end ImportPattern

end SiteMacros
