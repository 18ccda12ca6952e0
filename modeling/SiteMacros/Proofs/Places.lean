import Mathlib.Data.List.TakeWhile
import SiteMacros.Proofs.Walks

/-!
# The places that a change of files reaches

A change of files by a path reaches its destination, and the places that the path passes
through: a directory that is missing there is made. Every other address is left as it is,
and of a place on the way no more can be said to have happened than that a directory is
there now where nothing was (`LeftAlone`). That holds of a change that fails too.

A path may be written with `..`. Then it passes through places that do not lie around its
destination, and so the two kinds of places are told apart by the path and not by the
destination (`Path.PassesThrough`). What is below a path is found below its destination,
by names (`find_below`).

A file that is there can be written. So where writing a file has failed there is no text
(`textAt?_of_writeFile_error`).
-/

namespace SiteMacros

namespace Path

/-! ## The way of a path -/

/-- The steps of the path, or of a beginning of it, lead to the address. -/
def PassesThrough (p : Path) (ns : List String) : Prop :=
  ∃ cs, cs <+: p.components ∧ cs.foldl Component.follow [] = ns

theorem components_absolute {p : Path} (hp : p.isAbsolute = true) :
    p.components = .root :: p.pieces.filterMap (·.2) := by
  rw [components, if_pos hp]

/-- The path `q` is the path `p` with names after it. -/
structure Extends (p : Path) (ks : List String) (q : Path) : Prop where
  absolute : q.isAbsolute = true
  components : q.components = p.components ++ ks.map .name

variable {p q : Path} {ks ns : List String}

theorem extends_below (hp : p.isAbsolute = true) (hks : ∀ n ∈ ks, IsName n) :
    p.Extends ks (p.below ks) := by
  obtain ⟨habs, hpieces⟩ := pieces_below hp hks
  refine ⟨habs, ?_⟩
  rw [components_absolute habs, components_absolute hp, hpieces, List.cons_append]

namespace Extends

theorem destination_eq (h : p.Extends ks q) : q.destination = p.destination ++ ks := by
  rw [destination, h.components, List.foldl_append, foldl_follow_names]
  rfl

/-- A path with names after it passes through the places of the path, and then through
those below its destination. -/
theorem passesThrough (h : p.Extends ks q) (hns : q.PassesThrough ns) :
    p.PassesThrough ns ∨ ∃ ms, ms <+: ks ∧ ns = p.destination ++ ms := by
  obtain ⟨cs, hcs, rfl⟩ := hns
  rw [h.components] at hcs
  rcases List.prefix_or_prefix_of_prefix hcs (List.prefix_append p.components _)
    with hshort | ⟨ds, rfl⟩
  · exact .inl ⟨cs, hshort, rfl⟩
  · obtain ⟨ms, hms, rfl⟩ := List.prefix_map_iff.1 ((List.prefix_append_right_inj _).1 hcs)
    refine .inr ⟨ms, hms, ?_⟩
    rw [List.foldl_append, foldl_follow_names]
    rfl

end Extends

theorem passesThrough_parent? (h : p.parent? = some q) (hns : q.PassesThrough ns) :
    p.PassesThrough ns := by
  obtain ⟨cs, hcs, rfl⟩ := hns
  obtain ⟨c, hc⟩ := components_parent? h
  exact ⟨cs, hcs.trans (hc ▸ List.prefix_append q.components [c]), rfl⟩

/-- The paths around an absolute path lead to places on its way. -/
theorem passesThrough_of_ancestor (hp : p.isAbsolute = true) (h : q ∈ p.ancestors) :
    q.isAbsolute = true ∧ p.PassesThrough q.destination := by
  obtain ⟨hbegin, hne⟩ := exists_ancestor_iff.1 ⟨q, h, rfl⟩
  refine ⟨isAbsolute_iff_components.2 ?_, ⟨q.components, hbegin, rfl⟩⟩
  obtain ⟨cs, hcs⟩ := isAbsolute_iff_components.1 hp
  obtain ⟨c, ds, hds⟩ := List.exists_cons_of_ne_nil (hne hp)
  rw [hcs, hds, List.cons_prefix_cons] at hbegin
  exact ⟨ds, by rw [hds, hbegin.1]⟩

end Path

namespace FileTree

variable {t t' : FileTree} {p way : Path} {ms ns : List String}

/-! ## What is below a path -/

theorem reach_below {here : List String} (hp : p.text ≠ "") (hreach : t.reach p = .ok here)
    (hns : ∀ n ∈ ns, Path.IsName n) {node : FileTree} (hnode : t.get? (here ++ ns) = some node) :
    (p.below ns).text ≠ "" ∧ t.reach (p.below ns) = .ok (here ++ ns) := by
  induction ns generalizing p here with
  | nil => exact ⟨hp, by rw [List.append_nil]; exact hreach⟩
  | cons n ns ih =>
      obtain ⟨hn, hns⟩ := List.forall_mem_cons.1 hns
      obtain ⟨es, hes⟩ := exists_dir_of_get?_append (List.cons_ne_nil n ns) hnode
      have hcons : here ++ n :: ns = here ++ [n] ++ ns := by simp
      rw [hcons] at hnode ⊢
      have hthere : (t.get? (here ++ [n])).isSome = true := by
        cases hget : t.get? (here ++ [n]) with
        | some c => rfl
        | none =>
            rw [get?_append, hget] at hnode
            cases hnode
      refine ih (text_join_ne_empty hn.noSlash (.inl hp)) ?_ hns hnode
      rw [reach_join hn.noSlash (.inl hp), hreach]
      exact (walk_name hes hn.ne_empty hn.ne_here hn.ne_parent).trans (if_pos hthere)

/-- What is below the destination of a path that is found is found below the path. -/
theorem find_below {node c : FileTree} (hp : p.isAbsolute = true) (hfind : t.find p = .ok node)
    (hns : ∀ n ∈ ns, Path.IsName n) (hc : t.get? (p.destination ++ ns) = some c) :
    t.find (p.below ns) = .ok c := by
  obtain ⟨htext, here, hreach, -⟩ := reach_of_find hfind
  have hdest := address_eq_destination hp ((address_eq_reach htext).trans hreach)
  subst hdest
  obtain ⟨htext', hreach'⟩ := reach_below htext hreach hns hc
  exact find_of_reach htext' hreach' hc

/-- What is found at an absolute path is what is at its destination. -/
theorem get?_of_find {node : FileTree} (hp : p.isAbsolute = true) (h : t.find p = .ok node) :
    t.get? p.destination = some node := by
  obtain ⟨htext, here, hreach, hget⟩ := reach_of_find h
  rwa [← address_eq_destination hp ((address_eq_reach htext).trans hreach)]

theorem textAt?_of_readText {text : String} (hp : p.isAbsolute = true)
    (h : t.readText p = .ok text) : t.textAt? p.destination = some text := by
  obtain ⟨node, hnode, hread⟩ := Expansion.exists_of_bind_eq_ok h
  cases node with
  | dir es => cases hread
  | file text' =>
      cases hread
      exact textAt?_eq_some.2 (get?_of_find hp hnode)

/-! ## What is at an address -/

/-- What is at an address, without the entries of a directory. -/
def bareAt? (t : FileTree) (ns : List String) : Option FileTree :=
  (t.get? ns).map bare

theorem textAt?_eq_some_iff_bareAt? {text : String} :
    t.textAt? ns = some text ↔ t.bareAt? ns = some (.file text) := by
  rw [textAt?_eq_some, bareAt?]
  rcases t.get? ns with _ | (text' | es) <;> simp [bare]

theorem textAt?_congr (h : t'.bareAt? ns = t.bareAt? ns) : t'.textAt? ns = t.textAt? ns :=
  Option.ext fun text => by rw [textAt?_eq_some_iff_bareAt?, textAt?_eq_some_iff_bareAt?, h]

theorem bareAt?_of_get?_append {node : FileTree} (hne : ms ≠ [])
    (h : t.get? (ns ++ ms) = some node) : t.bareAt? ns = some empty := by
  obtain ⟨es, hes⟩ := exists_dir_of_get?_append hne h
  rw [bareAt?, hes]
  rfl

/-- A new node in a directory that is there changes what is at and below it. -/
theorem bareAt?_set {here : List String} {es : List (String × FileTree)}
    (hhere : t.get? here = some (.dir es)) (n : String) (c : FileTree) :
    (t.set (here ++ [n]) c).bareAt? ns =
      if here ++ [n] <+: ns then c.bareAt? (ns.drop (here ++ [n]).length) else t.bareAt? ns := by
  split
  · next hunder =>
      obtain ⟨rest, rfl⟩ := hunder
      rw [List.drop_left, bareAt?, get?_append, get?_set_self]
      rfl
  · next hunder =>
      by_cases haround : ns <+: here ++ [n]
      · -- a place around the new one is a directory before and after
        rcases List.prefix_concat_iff.1 haround with rfl | haround
        · exact absurd (List.prefix_refl _) hunder
        · obtain ⟨rest, rfl⟩ := haround
          have hset := get?_set_self t (ns ++ rest ++ [n]) c
          have hdir : t.bareAt? ns = some empty := by
            rcases eq_or_ne rest [] with rfl | hrest
            · rw [List.append_nil] at hhere
              rw [bareAt?, hhere]
              rfl
            · exact bareAt?_of_get?_append hrest hhere
          rw [hdir]
          rw [List.append_assoc] at hset ⊢
          exact bareAt?_of_get?_append (by simp) hset
      · rw [bareAt?, get?_set_of_apart hunder haround, bareAt?]

theorem bareAt?_file_append {text : String} (hne : ms ≠ []) : (file text).bareAt? ms = none := by
  obtain ⟨n, ns, rfl⟩ := List.exists_cons_of_ne_nil hne
  rfl

theorem bareAt?_empty_append (hne : ms ≠ []) : empty.bareAt? ms = none := by
  obtain ⟨n, ns, rfl⟩ := List.exists_cons_of_ne_nil hne
  rfl

/-- A node without entries in the place of one changes what is at its own address only. -/
theorem bareAt?_set_leaf {here : List String} {es : List (String × FileTree)}
    (hhere : t.get? here = some (.dir es)) {n : String} {c : FileTree}
    (hc : ∀ ms, ms ≠ [] → c.bareAt? ms = none)
    (hnot : ∀ es, t.get? (here ++ [n]) ≠ some (.dir es)) :
    (t.set (here ++ [n]) c).bareAt? ns =
      if ns = here ++ [n] then c.bareAt? [] else t.bareAt? ns := by
  rw [bareAt?_set hhere]
  split
  · next hunder =>
      obtain ⟨rest, rfl⟩ := hunder
      rw [List.drop_left]
      rcases eq_or_ne rest [] with rfl | hrest
      · rw [List.append_nil, if_pos rfl]
      · rw [hc rest hrest, if_neg fun heq => hrest (List.append_right_eq_self.1 heq)]
        cases hbelow : t.get? (here ++ [n] ++ rest) with
        | none => rw [bareAt?, hbelow]; rfl
        | some node =>
            obtain ⟨es', hes'⟩ := exists_dir_of_get?_append hrest hbelow
            exact absurd hes' (hnot es')
  · next hunder =>
      have hne : ns ≠ here ++ [n] := fun heq => hunder (heq ▸ List.prefix_refl _)
      rw [if_neg hne]

theorem bareAt?_makeDir (hp : p.isAbsolute = true) (h : t.makeDir p = .ok t') (ns : List String) :
    t.bareAt? p.destination = none ∧
      t'.bareAt? ns = if ns = p.destination then some empty else t.bareAt? ns := by
  rw [makeDir] at h
  split at h
  · cases h
  · next before name hlast =>
      obtain ⟨here, hhere, h⟩ := Expansion.exists_of_bind_eq_ok h
      obtain ⟨hwalk, es, hes⟩ := directoryAt_eq_ok hhere
      split at h
      · cases h
      · next hname =>
          have hdest := lastStep_destination hp hlast (Bool.not_eq_true _ ▸ hname) hwalk
          split at h
          · cases h
          · next hnone =>
              cases h
              rw [bareAt?_set_leaf hes (fun _ => bareAt?_empty_append) (by simp [hnone]), hdest]
              rw [hdest] at hnone
              exact ⟨by rw [bareAt?, hnone]; rfl, rfl⟩

theorem bareAt?_writeText {text : String} (hp : p.isAbsolute = true)
    (h : t.writeText p text = .ok t') :
    t'.bareAt? ns = if ns = p.destination then some (.file text) else t.bareAt? ns := by
  rw [writeText] at h
  split at h
  · cases h
  · next before name hlast =>
      obtain ⟨here, hhere, h⟩ := Expansion.exists_of_bind_eq_ok h
      obtain ⟨hwalk, es, hes⟩ := directoryAt_eq_ok hhere
      split at h
      · cases h
      · next hname =>
          rw [Bool.or_eq_true, not_or, Bool.not_eq_true] at hname
          have hdest := lastStep_destination hp hlast hname.1 hwalk
          split at h
          · cases h
          · next hnot =>
              cases h
              rw [bareAt?_set_leaf hes (fun _ => bareAt?_file_append) hnot, hdest]
              rfl

/-! ## Addresses that are left alone -/

/-- What is at the address is what was there, or it is a directory that was missing on
the way. -/
def LeftAlone (way : Path) (ns : List String) (t t' : FileTree) : Prop :=
  t'.bareAt? ns = t.bareAt? ns ∨
    way.PassesThrough ns ∧ t.bareAt? ns = none ∧ t'.bareAt? ns = some empty

namespace LeftAlone

theorem refl (way : Path) (ns : List String) (t : FileTree) : LeftAlone way ns t t :=
  .inl rfl

theorem trans {t'' : FileTree} (h : LeftAlone way ns t t') (h' : LeftAlone way ns t' t'') :
    LeftAlone way ns t t'' := by
  rcases h with h | ⟨hway, hnone, hmade⟩
  · rwa [LeftAlone, h] at h'
  · rcases h' with h' | ⟨-, hnone', -⟩
    · exact .inr ⟨hway, hnone, h'.trans hmade⟩
    · rw [hmade] at hnone'
      cases hnone'

instance : Std.Refl (LeftAlone way ns) :=
  ⟨refl way ns⟩

instance : Trans (LeftAlone way ns) (LeftAlone way ns) (LeftAlone way ns) :=
  ⟨trans⟩

/-- No text comes or goes. -/
theorem textAt?_eq (h : LeftAlone way ns t t') : t'.textAt? ns = t.textAt? ns := by
  rcases h with h | ⟨-, hnone, hmade⟩
  · exact textAt?_congr h
  · refine Option.ext fun text => ?_
    rw [textAt?_eq_some_iff_bareAt?, textAt?_eq_some_iff_bareAt?, hnone, hmade]
    exact iff_of_false (fun h => by cases h) nofun

end LeftAlone

/-! ## Files that are there can be written -/

/-- The steps before the last one lead to a directory, in which the last one is taken. -/
theorem exists_of_lastStep {before : List String} {name : String} {here : List String}
    (hlast : lastStep p = some (before, name)) (hreach : t.reach p = .ok here) :
    ∃ home, t.directoryAt before = .ok home ∧
      (isStep name = false → (t.get? (home ++ [name])).isSome = true) := by
  rw [lastStep] at hlast
  split at hlast
  · cases hlast
  · next last rest hrest =>
      obtain ⟨rfl, rfl⟩ := Prod.mk.inj (Option.some.inj hlast)
      obtain ⟨hcounts, after, -, hsteps⟩ := Text.dropEndWhile_append_reverse hrest
      rw [reach, hsteps, walk_append] at hreach
      cases hwalk : t.walk [] rest.reverse with
      | error e =>
          rw [hwalk] at hreach
          cases hreach
      | ok home =>
          rw [hwalk] at hreach
          change t.walk home (last :: after) = .ok here at hreach
          rw [walk] at hreach
          split at hreach
          · cases hreach
          · cases hreach
          · next es hes =>
              have hhome : t.directoryAt rest.reverse = .ok home := by
                rw [directoryAt, hwalk]
                simp [bind, Except.bind, hes]
              refine ⟨home, hhome, fun hstep => ?_⟩
              rw [isStep, Bool.or_eq_false_iff, decide_eq_false_iff_not,
                decide_eq_false_iff_not] at hstep
              have hempty : last ≠ "" := by simpa using hcounts
              rw [if_neg (by simp [hempty, hstep.1]), if_neg hstep.2] at hreach
              split at hreach
              · cases hreach
              · next node hnode => rw [hnode]; rfl


/-- A directory that is there is not made again. -/
theorem makeDirs_of_dir {es : List (String × FileTree)} (h : t.find p = .ok (.dir es)) :
    t.makeDirs p = (t, .ok ()) := by
  obtain ⟨hp, here, hreach, hget⟩ := reach_of_find h
  have hmade : t.makeDir p = .error .exists := by
    rw [makeDir]
    split
    · rw [if_neg (by rwa [String.isEmpty_iff])]
    · next before name hlast =>
        obtain ⟨home, hhome, hthere⟩ := exists_of_lastStep hlast hreach
        rw [hhome]
        dsimp only [bind, Except.bind]
        split
        · rfl
        · next hname =>
            obtain ⟨node, hnode⟩ := Option.isSome_iff_exists.1 (hthere (Bool.not_eq_true _ ▸ hname))
            rw [hnode]
  have hdir : t.isDir p = true := by rw [isDir, h]
  rw [makeDirs, if_neg (by rwa [String.isEmpty_iff]), Path.ancestors, Path.ancestors.go, makeDirsAt,
    hmade]
  dsimp only
  rw [hdir, if_pos rfl]

theorem endsWith_of_endsInName (hp : p.Leads ms) (hend : p.EndsInName) :
    Text.endsWith "/" p.text = false := by
  rw [Bool.eq_false_iff]
  intro hslash
  obtain ⟨cs, hcs⟩ := Path.toList_of_endsWith hslash
  have hne : p.text ≠ "" := by
    intro hempty
    rw [hempty] at hcs
    cases cs <;> cases hcs
  have hsteps : (steps p).getLast? = some "" := by
    have hcs' : p.text.toList = cs ++ '/' :: [] := hcs
    rw [steps_eq hne, hcs', Text.pieces_append_sep, List.map_append, List.getLast?_append]
    rfl
  exact endInName_steps hp hend "" hsteps (.inl rfl)

/-- A file that is there can be written. -/
theorem exists_writeText {old : String} (hp : p.Leads ms) (hend : p.EndsInName)
    (h : t.textAt? ms = some old) (text : String) : ∃ t', t.writeText p text = .ok t' := by
  have hget := textAt?_eq_some.1 h
  obtain ⟨htext, here, hreach, -⟩ := reach_of_find ((find_eq_ok_iff hp hend).2 hget)
  rw [writeText]
  split
  · next hlast =>
      -- the last piece is a name
      rw [lastStep] at hlast
      split at hlast
      · next hnil =>
          rw [Text.dropEndWhile, List.reverse_reverse, List.dropWhile_eq_nil_iff] at hnil
          have hne : steps p ≠ [] := by
            rw [steps_eq htext]
            exact fun hnil => Text.pieces_ne_nil _ _ (List.map_eq_nil_iff.1 hnil)
          have hempty := hnil _ (List.mem_reverse.2 (List.getLast_mem hne))
          exact absurd (.inl (by simpa using hempty))
            (endInName_steps hp hend _ (List.getLast?_eq_some_getLast hne))
      · cases hlast
  · next before name hlast =>
      obtain ⟨hup, hnames⟩ := lastStep_leads hp hend hlast
      obtain ⟨home, hhome, -⟩ := exists_of_lastStep hlast hreach
      obtain ⟨hwalk, es, hes⟩ := directoryAt_eq_ok hhome
      have hplace : home ++ [name] = ms := by
        rw [(walk_eq_ok hup hwalk).1, List.nil_append, hnames]
      have hname : Path.IsName name := hp.isName name (by rw [← hplace]; simp)
      rw [hhome]
      dsimp only [bind, Except.bind]
      rw [isStep, endsWith_of_endsInName hp hend, hplace, hget]
      simp [hname.ne_here, hname.ne_parent]

end FileTree

namespace OnDisk

open FileTree

variable {file target way : Path} {ms ns : List String}

section

variable (hfile : file.isAbsolute = true) (hway : file.PassesThrough ns → way.PassesThrough ns)
include hfile hway

theorem leftAlone_makeAround : Keeps (LeftAlone way ns) (makeAround file) := by
  refine .makeAround fun dir hdir t =>
    makeDirs_keeps (.refl way ns) .trans (fun a ha t t' hmade => ?_) t
  have hdirabs : dir.isAbsolute = true := (Path.isAbsolute_parent? hdir).trans hfile
  obtain ⟨habs, hpasses⟩ := Path.passesThrough_of_ancestor hdirabs ha
  obtain ⟨hnone, hafter⟩ := bareAt?_makeDir habs hmade ns
  by_cases hns : ns = a.destination
  · subst hns
    rw [if_pos rfl] at hafter
    exact .inr ⟨hway (Path.passesThrough_parent? hdir hpasses), hnone, hafter⟩
  · rw [if_neg hns] at hafter
    exact .inl hafter

theorem leftAlone_writeFile (hns : ns ≠ file.destination) (text : String) :
    Keeps (LeftAlone way ns) (writeFile file text) := by
  refine .writeFile (leftAlone_makeAround hfile hway) fun t t' text hwritten => .inl ?_
  rw [bareAt?_writeText hfile hwritten, if_neg hns]

theorem leftAlone_copyFile (hns : ns ≠ file.destination) (source : Path) :
    Keeps (LeftAlone way ns) (copyFile source file) := by
  refine .copyFile source (leftAlone_makeAround hfile hway) fun t t' text hwritten => .inl ?_
  rw [bareAt?_writeText hfile hwritten, if_neg hns]

end

/-- A file that has been written has the text. -/
theorem textAt?_destination_writeFile {text : String} {t t' : FileTree}
    (hfile : file.isAbsolute = true) (h : (writeFile file text).run t = (.ok (), t')) :
    t'.textAt? file.destination = some text := by
  obtain ⟨_, t₁, -, h⟩ := run_bind_ok h
  rw [textAt?_eq_some_iff_bareAt?, bareAt?_writeText hfile (attempt_ok (change_ok h)), if_pos rfl]

/-- A copy has the text of the file, if the two have different destinations. -/
theorem textAt?_destination_copyFile {t t' : FileTree} (hfile : file.isAbsolute = true)
    (htarget : target.isAbsolute = true) (hne : file.destination ≠ target.destination)
    (h : (copyFile file target).run t = (.ok (), t')) :
    ∃ text, t.textAt? file.destination = some text ∧
      t'.textAt? target.destination = some text := by
  obtain ⟨_, t₁, hmade, h₁⟩ := run_bind_ok h
  obtain ⟨_, t₂, hfirst, h₂⟩ := run_bind_ok h₁
  obtain ⟨_, t₃, hemptied, h₃⟩ := run_bind_ok h₂
  obtain ⟨text, t₄, hsecond, hcopied⟩ := run_bind_ok h₃
  obtain ⟨rfl, -⟩ := look_ok hfirst
  obtain ⟨rfl, hread⟩ := look_ok hsecond
  refine ⟨text, ?_, ?_⟩
  · rw [← textAt?_makeAround hmade, ← textAt?_of_readText hfile hread]
    exact (textAt?_writeText_of_ne htarget (attempt_ok (change_ok hemptied)) hne).symm
  · rw [textAt?_eq_some_iff_bareAt?, bareAt?_writeText htarget (attempt_ok (change_ok hcopied)),
      if_pos rfl]

/-- A file that is there can be written, with the directories around it. -/
theorem exists_writeFile {old : String} {t : FileTree} (hfile : file.Leads ms)
    (hend : file.EndsInName) (h : t.textAt? ms = some old) (text : String) :
    ∃ t', (writeFile file text).run t = (.ok (), t') := by
  have hmade : (makeAround file).run t = (.ok (), t) := by
    rw [makeAround]
    split
    · next dir hdir =>
        rcases List.eq_nil_or_concat ms with rfl | ⟨ks, n, rfl⟩
        · rw [hfile.parent?_nil] at hdir
          cases hdir
        · rw [List.concat_eq_append] at hfile h
          obtain ⟨q, hq, hleads⟩ := hfile.parent?_concat
          rw [hq] at hdir
          cases hdir
          obtain ⟨es, hes⟩ :=
            exists_dir_of_get?_append (List.cons_ne_nil n []) (textAt?_eq_some.1 h)
          have hfind : t.find dir = .ok (.dir es) := by
            rw [find, address_of_get? hleads hes (.inl rfl)]
            dsimp only [bind, Except.bind]
            rw [hes]
          rw [run_change, makeDirs_of_dir hfind]
    · rfl
  obtain ⟨t', hwritten⟩ := exists_writeText hfile hend h text
  refine ⟨t', ?_⟩
  rw [writeFile, run_bind, hmade]
  dsimp only
  rw [run_change, attempt, hwritten]

/-- Where writing a file has failed there is no text. -/
theorem textAt?_of_writeFile_error {text : String} {t t' : FileTree} {e : Failure}
    (hfile : file.Leads ms) (hend : file.EndsInName)
    (h : (writeFile file text).run t = (.error e, t')) : t'.textAt? ms = none := by
  have hkept : t'.textAt? ms = t.textAt? ms := by
    have hleft : LeftAlone file ms t ((makeAround file).run t).2 :=
      leftAlone_makeAround hfile.isAbsolute id t
    have hmade := hleft.textAt?_eq
    rw [writeFile, run_bind] at h
    cases hrun : (makeAround file).run t with
    | mk result t₁ =>
        rw [hrun] at h hmade
        cases result with
        | error e' =>
            cases h
            exact hmade
        | ok _ =>
            dsimp only at h hmade
            rw [run_change, attempt] at h
            cases hwritten : t₁.writeText file text with
            | ok t₂ =>
                rw [hwritten] at h
                cases congrArg Prod.fst h
            | error fault =>
                rw [hwritten] at h
                cases h
                exact hmade
  rw [hkept, Option.eq_none_iff_forall_ne_some]
  intro old hold
  obtain ⟨t'', hok⟩ := exists_writeFile hfile hend hold text
  rw [h] at hok
  cases congrArg Prod.fst hok

end OnDisk

end SiteMacros
