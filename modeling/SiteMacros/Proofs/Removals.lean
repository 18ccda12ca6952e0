import SiteMacros.Proofs.Accounts
import SiteMacros.Proofs.Beside
import SiteMacros.Proofs.GlobTexts

/-!
# What removals leave

What is taken away by a path is what is at its destination and below, and the rest is as it
was (`bareAt?_discard`). Two things can keep a removal from taking away all of it. A path
that ends in a step leaves the directory it leads to, emptied; and a path that is written
through its own destination does not find the directory again once that is empty. So the
destination itself is gone only if the path ends in a name (`endsOnName`), and a root
of the output tree that is written through itself is excluded (`Severed`).

What is removed is told by address, which is why removals can be made in any order and as
often as one likes.
-/

namespace SiteMacros

theorem Path.text_ne_empty {p : Path} (hp : p.isAbsolute = true) : p.text ≠ "" := by
  obtain ⟨cs, hcs⟩ := p.isAbsolute_iff.1 hp
  intro hempty
  rw [hempty] at hcs
  cases hcs

theorem Path.passesThrough_destination (p : Path) : p.PassesThrough p.destination :=
  ⟨p.components, List.prefix_refl _, rfl⟩

/-- The places that a path passes through are those its beginnings lead to. -/
theorem Path.forall_passesThrough_iff {p : Path} {P : List String → Prop} :
    (∀ ns, p.PassesThrough ns → P ns) ↔
      ∀ cs ∈ p.components.inits, P (cs.foldl Component.follow []) := by
  constructor
  · exact fun h cs hcs => h _ ⟨cs, (List.mem_inits cs _).1 hcs, rfl⟩
  · rintro h ns ⟨cs, hcs, rfl⟩
    exact h cs ((List.mem_inits cs _).2 hcs)

instance (p : Path) (P : List String → Prop) [DecidablePred P] :
    Decidable (∀ ns, p.PassesThrough ns → P ns) :=
  decidable_of_iff _ Path.forall_passesThrough_iff.symm

/-- A path of names passes through what is around the place it leads to. -/
theorem Path.Leads.around_of_passesThrough {p : Path} {ms ns : List String} (h : p.Leads ms)
    (hns : p.PassesThrough ns) : ns <+: ms := by
  obtain ⟨cs, hcs, rfl⟩ := hns
  rw [h.components_eq] at hcs
  rcases List.prefix_cons_iff.1 hcs with rfl | ⟨ds, rfl, hds⟩
  · exact List.nil_prefix
  · obtain ⟨ks, hks, rfl⟩ := List.prefix_map_iff.1 hds
    rw [List.foldl_cons, Path.foldl_follow_names]
    exact hks

namespace FileTree

variable {t t' : FileTree} {here ms ns : List String}

/-! ## The way of a walk -/

theorem get?_of_bareAt? (h : t'.bareAt? ns = t.bareAt? ns) :
    (t.get? ns = none ∧ t'.get? ns = none) ∨
      (∃ text, t.get? ns = some (.file text) ∧ t'.get? ns = some (.file text)) ∨
      ∃ es fs, t.get? ns = some (.dir es) ∧ t'.get? ns = some (.dir fs) := by
  rw [bareAt?, bareAt?] at h
  rcases hnode : t.get? ns with _ | (text | es) <;>
    rcases hnode' : t'.get? ns with _ | (text' | fs) <;>
    rw [hnode, hnode'] at h <;> simp [bare] at h ⊢
  exact h

/-- A walk looks at the nodes on its way only, and at no entry but the next one. -/
theorem walk_eq_of_way {pieces : List String} (h : ∀ cs, cs <+: pieces.filterMap stepOf →
      t'.bareAt? (cs.foldl Component.follow here) = t.bareAt? (cs.foldl Component.follow here)) :
    t'.walk here pieces = t.walk here pieces := by
  induction pieces generalizing here with
  | nil => rfl
  | cons piece rest ih =>
      have hhere := h [] List.nil_prefix
      rcases get?_of_bareAt? hhere with ⟨hnone, hnone'⟩ | ⟨text, hfile, hfile'⟩ | ⟨es, fs, hes, hfs⟩
      · rw [walk, walk]
        simp only [List.foldl_nil] at hnone hnone'
        rw [hnone, hnone']
      · rw [walk, walk]
        simp only [List.foldl_nil] at hfile hfile'
        rw [hfile, hfile']
      · simp only [List.foldl_nil] at hes hfs
        rw [show piece :: rest = [piece] ++ rest from rfl, walk_append, walk_append]
        by_cases hidle : piece = "" ∨ piece = "."
        · rw [List.filterMap_cons_none (stepOf_of_idle hidle)] at h
          rw [walk_idle hes hidle, walk_idle hfs hidle]
          exact ih h
        · rw [not_or] at hidle
          by_cases hup : piece = ".."
          · subst hup
            rw [List.filterMap_cons_some stepOf_up] at h
            rw [walk_up hes, walk_up hfs]
            exact ih fun cs hcs => h (.parent :: cs) (List.cons_prefix_cons.2 ⟨rfl, hcs⟩)
          · rw [List.filterMap_cons_some (stepOf_of_name hidle.1 hidle.2 hup)] at h
            have hnext : t'.bareAt? (here ++ [piece]) = t.bareAt? (here ++ [piece]) :=
              h [.name piece] (List.cons_prefix_cons.2 ⟨rfl, List.nil_prefix⟩)
            have hsome :
                (t'.get? (here ++ [piece])).isSome = (t.get? (here ++ [piece])).isSome := by
              have hboth := congrArg Option.isSome hnext
              rwa [bareAt?, bareAt?, Option.isSome_map, Option.isSome_map] at hboth
            rw [walk_name hes hidle.1 hidle.2 hup, walk_name hfs hidle.1 hidle.2 hup, hsome]
            split
            · exact ih fun cs hcs => h (.name piece :: cs) (List.cons_prefix_cons.2 ⟨rfl, hcs⟩)
            · rfl

variable {p : Path}

/-- A path is found by what there is on its way. -/
theorem address_eq_of_way (hp : p.isAbsolute = true)
    (h : ∀ ns, p.PassesThrough ns → t'.bareAt? ns = t.bareAt? ns) : t'.address p = t.address p := by
  rw [address, address]
  split
  · rfl
  · next hsteps =>
      refine walk_eq_of_way fun cs hcs => ?_
      rw [steps_absolute hp] at hcs
      refine h _ ⟨.root :: cs, ?_, rfl⟩
      rw [Path.components_absolute hp]
      exact List.cons_prefix_cons.2 ⟨rfl, hcs⟩

theorem isFile_eq_of_way (hp : p.isAbsolute = true)
    (h : ∀ ns, p.PassesThrough ns → t'.bareAt? ns = t.bareAt? ns) :
    t'.isFile p = t.isFile p ∧ t'.isDir p = t.isDir p := by
  have haddress := address_eq_of_way hp h
  simp only [isFile, isDir, find, haddress, bind, Except.bind]
  cases hhere : t.address p with
  | error fault => exact ⟨rfl, rfl⟩
  | ok here =>
      have hdest := address_eq_destination hp hhere
      subst hdest
      dsimp only
      rcases get?_of_bareAt? (h p.destination ⟨p.components, List.prefix_refl _, rfl⟩) with
        ⟨hnone, hnone'⟩ | ⟨text, hfile, hfile'⟩ | ⟨es, fs, hes, hfs⟩
      · rw [hnone, hnone']
        exact ⟨rfl, rfl⟩
      · rw [hfile, hfile']
        exact ⟨rfl, rfl⟩
      · rw [hes, hfs]
        exact ⟨rfl, rfl⟩

/-! ## Nodes that are taken away -/

theorem bareAt?_cons (t : FileTree) (n : String) (ns : List String) :
    t.bareAt? (n :: ns) = (t.child? n).bind (·.bareAt? ns) := by
  rw [bareAt?, get?]
  cases t.child? n <;> rfl

/-- What is there after something was taken away. -/
theorem bareAt?_erase (hms : ms ≠ []) (hthere : (t.get? ms).isSome = true) :
    (t.erase ms).bareAt? ns = if ms <+: ns then none else t.bareAt? ns := by
  induction ms generalizing t ns with
  | nil => exact absurd rfl hms
  | cons m ms ih =>
      rw [get?] at hthere
      cases hc : t.child? m with
      | none =>
          rw [hc] at hthere
          cases hthere
      | some c =>
          rw [hc] at hthere
          cases ns with
          | nil =>
              -- a node with an entry is a directory, and stays one
              rw [if_neg (by simp)]
              cases t with
              | file text => cases hc
              | dir es =>
                  cases ms with
                  | nil => rfl
                  | cons m' ms =>
                      rw [erase]
                      · rw [hc]
                        rfl
                      · exact List.cons_ne_nil _ _
          | cons n ns =>
              simp only [List.cons_prefix_cons, bareAt?_cons]
              by_cases hrest : ms = []
              · subst hrest
                rw [child?_erase_singleton]
                by_cases hn : n = m
                · rw [if_pos hn, if_pos ⟨hn.symm, List.nil_prefix⟩]
                  rfl
                · rw [if_neg hn, if_neg fun h => hn h.1.symm]
              · rw [child?_erase_cons t m hrest]
                by_cases hn : n = m
                · subst hn
                  rw [if_pos rfl, hc]
                  simpa using ih hrest hthere
                · rw [if_neg hn, if_neg fun h => hn h.1.symm]

/-- An emptied directory is there, and nothing below it. -/
theorem bareAt?_set_empty {es : List (String × FileTree)} (hms : ms ≠ [])
    (h : t.get? ms = some (.dir es)) :
    (t.set ms empty).bareAt? ns = if ms <+: ns ∧ ns ≠ ms then none else t.bareAt? ns := by
  obtain ⟨here, n, rfl⟩ : ∃ here n, ms = here ++ [n] :=
    ⟨ms.dropLast, ms.getLast hms, (List.dropLast_append_getLast hms).symm⟩
  obtain ⟨fs, hfs⟩ := exists_dir_of_get?_append (List.cons_ne_nil n []) h
  rw [bareAt?_set hfs]
  by_cases hunder : here ++ [n] <+: ns
  · obtain ⟨rest, rfl⟩ := hunder
    rw [if_pos (List.prefix_append _ rest), List.drop_left]
    by_cases hrest : rest = []
    · subst hrest
      have hthere : t.bareAt? (here ++ [n]) = some empty := by
        rw [bareAt?, h]
        rfl
      rw [List.append_nil, if_neg fun hne => hne.2 rfl, hthere]
      rfl
    · rw [bareAt?_empty_append hrest,
        if_pos ⟨List.prefix_append _ rest, fun heq => hrest (List.append_right_eq_self.1 heq)⟩]
  · rw [if_neg hunder, if_neg fun hboth => hunder hboth.1]

/-! ## Paths that go on from a directory -/

/-- Does the path end in a name? Slashes at its end do not count. -/
def endsOnName (p : Path) : Bool :=
  match lastStep p with
  | some (_, name) => !isStep name
  | none => false

/-- The path `q` is walked as the path `p` is, and through names after that. -/
def GoesOn (p : Path) (ks : List String) (q : Path) : Prop :=
  ∃ before rest, steps q = before ++ rest ∧ (steps p = before ∨ steps p = before ++ [""]) ∧
    rest ≠ [] ∧ ".." ∉ rest ∧ named rest = ks ∧ (ks ≠ [] → EndInName rest)

theorem goesOn_join (hp : p.text ≠ "") {rel : Path} {ks : List String}
    (hrel : rel.isAbsolute = false)
    (hnames : ((Text.pieces '/' rel.text.toList).map Path.pieces.inner).filterMap (·.2) =
      ks.map .name)
    (hlast : ks ≠ [] → ∀ q, ((Text.pieces '/' rel.text.toList).map Path.pieces.inner).getLast? =
      some q → Path.idle q = false) : GoesOn p ks (p.join rel.text) := by
  obtain ⟨before, -, hsteps, hbefore⟩ := steps_join_relative hp hrel
  obtain ⟨hup, hnamed⟩ := named_of_leads hnames
  refine ⟨before, _, hsteps, hbefore, ?_, hup, hnamed, fun hks n hn hidle => ?_⟩
  · exact fun hnil => Text.pieces_ne_nil '/' _ (List.map_eq_nil_iff.1 hnil)
  · rw [Text.split, List.getLast?_map] at hn
    obtain ⟨r, hr, rfl⟩ := Option.map_eq_some_iff.1 hn
    have hcounts := hlast hks (Path.pieces.inner r) (by rw [List.getLast?_map, hr]; rfl)
    rw [← Path.inner_fst, ← Path.inner_snd_none] at hidle
    rw [Path.idle, hidle] at hcounts
    cases hcounts

theorem destination_of_walk (hp : p.isAbsolute = true) {before home : List String}
    (h : steps p = before ∨ steps p = before ++ [""]) (hwalk : t.walk [] before = .ok home) :
    home = p.destination := by
  rw [destination_eq_steps hp, walk_eq_follow hwalk]
  rcases h with h | h
  · rw [h]
  · rw [h, List.filterMap_append, List.filterMap_cons_none (stepOf_of_idle (.inl rfl)),
      List.filterMap_nil, List.append_nil]

/-- A directory is found by its pieces, whether an empty piece follows them or not. -/
theorem isDir_iff_walk (hp : p.isAbsolute = true) {before : List String}
    (h : steps p = before ∨ steps p = before ++ [""]) :
    t.isDir p = true ↔
      ∃ es, t.walk [] before = .ok p.destination ∧ t.get? p.destination = some (.dir es) := by
  have htext := Path.text_ne_empty hp
  have hreach : t.isDir p = true ↔
      ∃ es, t.reach p = .ok p.destination ∧ t.get? p.destination = some (.dir es) := by
    rw [isDir]
    constructor
    · intro hdir
      split at hdir
      · next es hfind =>
          obtain ⟨-, home, hhome, hget⟩ := reach_of_find hfind
          rw [← address_eq_destination hp ((address_eq_reach htext).trans hhome)]
          exact ⟨es, hhome, hget⟩
      · cases hdir
    · rintro ⟨es, hhome, hget⟩
      rw [find_of_reach htext hhome hget]
  rw [hreach, reach]
  rcases h with h | h
  · rw [h]
  · rw [h, walk_append]
    refine exists_congr fun es => and_congr_left fun hes => ?_
    cases hwalk : t.walk [] before with
    | error fault =>
        refine iff_of_false (fun heq => ?_) fun heq => ?_
        · cases heq
        · cases heq
    | ok home =>
        obtain rfl := destination_of_walk hp (.inr h) hwalk
        exact iff_of_true (walk_idle hes (.inl rfl)) rfl

/-- A directory that is found again once it is empty is taken away by a path that ends in a
name, and stays otherwise. -/
theorem removeTree_eq {home : List String} {es : List (String × FileTree)}
    (haddress : t.address p = .ok home) (hes : t.get? home = some (.dir es))
    (hagain : (t.set home empty).address p = .ok home) :
    (t.removeTree p).1 =
      if endsOnName p = true then (t.set home empty).erase home else t.set home empty := by
  rw [removeTree, haddress]
  dsimp only
  rw [hes]
  dsimp only
  rw [hagain, endsOnName]
  dsimp only
  rcases hlast : lastStep p with _ | ⟨before, name⟩
  · rfl
  · by_cases hdot : name = "."
    · subst hdot
      rfl
    · by_cases hup : name = ".."
      · subst hup
        rfl
      · simp [isStep, hdot, hup]

namespace GoesOn

variable {q : Path} {ks : List String}

theorem endsOnName (h : GoesOn p ks q) (hks : ks ≠ []) : endsOnName q = true := by
  obtain ⟨before, rest, hsteps, -, hrest, hup, -, hend⟩ := h
  obtain ⟨front, n, rfl⟩ : ∃ front n, rest = front ++ [n] :=
    ⟨rest.dropLast, rest.getLast hrest, (List.dropLast_append_getLast hrest).symm⟩
  have hn := hend hks n List.getLast?_concat
  have hparent : n ≠ ".." := by
    rintro rfl
    exact hup (List.mem_append_right _ List.mem_cons_self)
  rw [not_or] at hn
  rw [FileTree.endsOnName, lastStep, hsteps, ← List.append_assoc, Text.dropEndWhile_concat,
    if_neg (by simpa using hn.1), List.reverse_append]
  simp [isStep, hn.2, hparent]

/-- Nothing is found that way where there is no directory to go on from. -/
theorem address_eq_error (h : GoesOn p ks q) (hp : p.isAbsolute = true)
    (hdir : t.isDir p = false) : ∃ fault, t.address q = .error fault := by
  obtain ⟨before, rest, hsteps, hbefore, hrest, -⟩ := h
  obtain ⟨n, rest, rfl⟩ := List.exists_cons_of_ne_nil hrest
  rw [address, hsteps]
  split
  · exact ⟨_, rfl⟩
  · rw [walk_append]
    cases hwalk : t.walk [] before with
    | error fault => exact ⟨fault, rfl⟩
    | ok home =>
        show ∃ fault, t.walk home (n :: rest) = .error fault
        rw [walk]
        rcases hget : t.get? home with _ | (text | es)
        · exact ⟨_, rfl⟩
        · exact ⟨_, rfl⟩
        · have hhome := destination_of_walk hp hbefore hwalk
          subst hhome
          rw [(isDir_iff_walk hp hbefore).2 ⟨es, hwalk, hget⟩] at hdir
          cases hdir

/-- Names that go on from a directory lead to what is there. -/
theorem address_eq_ok (h : GoesOn p ks q) (hp : p.isAbsolute = true) (hdir : t.isDir p = true)
    {node : FileTree} (hnode : t.get? (p.destination ++ ks) = some node) :
    t.address q = .ok (p.destination ++ ks) := by
  obtain ⟨before, rest, hsteps, hbefore, hrest, hup, rfl, hend⟩ := h
  obtain ⟨es, hwalk, hes⟩ := (isDir_iff_walk hp hbefore).1 hdir
  have hrestwalk : t.walk p.destination rest = .ok (p.destination ++ named rest) := by
    refine walk_of_get? hup hnode ?_
    by_cases hks : named rest = []
    · rw [hks, List.append_nil, hes] at hnode
      cases hnode
      exact .inl rfl
    · exact .inr (hend hks)
  rw [address, hsteps]
  split
  · next hnil => exact absurd (List.append_eq_nil_iff.1 hnil).2 hrest
  · rw [walk_append, hwalk]
    exact hrestwalk

end GoesOn

end FileTree

/-- After the root, the steps of a path that do not step out are names. -/
theorem Path.exists_names {p : Path} (hp : p.isAbsolute = true) {cs : List Component}
    (hcs : cs ⊆ p.pieces.filterMap (·.2)) (hup : .parent ∉ cs) :
    ∃ ns : List String, cs = ns.map .name := by
  refine ⟨cs.map Component.label, ?_⟩
  rw [List.map_map]
  refine ((List.map_congr_left fun c hc => ?_).trans (List.map_id cs)).symm
  have hstep := hcs hc
  rw [← FileTree.steps_absolute hp] at hstep
  obtain ⟨piece, -, hstep⟩ := List.mem_filterMap.1 hstep
  rcases FileTree.stepOf_eq_some hstep with ⟨-, rfl⟩ | ⟨-, rfl⟩
  · exact absurd hc hup
  · rfl

namespace OnDisk

open FileTree

variable {t : FileTree} {p q : Path} {ks ns : List String}

theorem run_discard (q : Path) (t : FileTree) : ((discard q).run t).2 =
    if t.isDir q then (t.removeTree q).1 else (attempt (·.removeFile q) t).1 :=
  rfl

theorem discard_eq_self {fault : FileFault} (h : t.address q = .error fault) :
    ((discard q).run t).2 = t := by
  have hnot : t.isDir q = false := by
    rw [isDir, find, h]
    rfl
  rw [run_discard, hnot, if_neg Bool.false_ne_true, attempt, removeFile, h]
  rfl

/-- There is nothing to take away. -/
theorem discard_of_get?_eq_none (hq : q.isAbsolute = true)
    (hnode : t.get? q.destination = none) : ((discard q).run t).2 = t := by
  cases haddress : t.address q with
  | error fault => exact discard_eq_self haddress
  | ok home =>
      have hhome := address_eq_destination hq haddress
      rw [address_eq_reach (Path.text_ne_empty hq)] at haddress
      obtain ⟨node, hthere⟩ := exists_of_reach haddress
      rw [hhome, hnode] at hthere
      cases hthere

theorem discard_file {home : List String} {text : String} (haddress : t.address q = .ok home)
    (hnode : t.get? home = some (.file text)) : ((discard q).run t).2 = t.erase home := by
  have hnot : t.isDir q = false := by
    rw [isDir, find, haddress]
    dsimp only [bind, Except.bind]
    rw [hnode]
  rw [run_discard, hnot, if_neg Bool.false_ne_true, attempt, removeFile, haddress]
  dsimp only [bind, Except.bind]
  rw [hnode]

theorem discard_dir {home : List String} {es : List (String × FileTree)}
    (haddress : t.address q = .ok home) (hnode : t.get? home = some (.dir es))
    (hagain : (t.set home empty).address q = .ok home) :
    ((discard q).run t).2 =
      if endsOnName q = true then (t.set home empty).erase home else t.set home empty := by
  have hthere : t.isDir q = true := by
    rw [isDir, find, haddress]
    dsimp only [bind, Except.bind]
    rw [hnode]
  rw [run_discard, hthere, if_pos rfl, removeTree_eq haddress hnode hagain]

/-- What a removal leaves of the files has names still. -/
theorem sound_discard (hq : q.isAbsolute = true) (hsound : t.Sound) :
    ((discard q).run t).2.Sound := by
  rw [run_discard]
  split
  · rcases removeTree_cases hq t with ⟨hsame, -⟩ | ⟨es, hes, hemptied | herased⟩
    · rw [hsame]
      exact hsound
    · rw [hemptied]
      exact hsound.set sound_empty (hsound.isName hes)
    · rw [herased]
      exact (hsound.set sound_empty (hsound.isName hes)).erase
  · rw [attempt]
    split
    · next t' h =>
        obtain ⟨home, -, h⟩ := Expansion.exists_of_bind_eq_ok h
        split at h
        · cases h
          exact hsound.erase
        · cases h
        · cases h
    · exact hsound

section

variable (hextends : p.Extends ks q) (hroot : p.destination ≠ [])
  (hway : ∀ ns, p.PassesThrough ns → p.destination <+: ns → ns = p.destination)
include hextends hroot hway

/-- Emptying a directory leaves the way to it as it is. -/
theorem address_emptied {es : List (String × FileTree)}
    (hes : t.get? q.destination = some (.dir es)) :
    (t.set q.destination empty).address q = t.address q := by
  have hdest := hextends.destination_eq
  have hne : q.destination ≠ [] := by
    rw [hdest]
    exact List.append_ne_nil_of_left_ne_nil hroot ks
  refine address_eq_of_way hextends.absolute fun ns hns => ?_
  rw [bareAt?_set_empty hne hes, if_neg]
  rintro ⟨hbelow, hother⟩
  rw [hdest] at hbelow hother
  rcases hextends.passesThrough hns with hns | ⟨ms, hms, rfl⟩
  · have hhome := hway ns hns ((List.prefix_append _ ks).trans hbelow)
    subst hhome
    have hks : ks = [] := List.append_right_eq_self.1
      (hbelow.eq_of_length_le (by rw [List.length_append]; omega))
    exact hother (by rw [hks, List.append_nil])
  · refine hother (congrArg _ (hms.eq_of_length_le ?_))
    have hle := hbelow.length_le
    rw [List.length_append, List.length_append] at hle
    omega

/-- A removal takes away what is at its destination and below, but for a directory that it
finds by a path which does not end in a name: that stays, and is empty. -/
theorem bareAt?_discard (hp : p.isAbsolute = true) (honward : GoesOn p ks q)
    (hdir : t.isDir p = true) (ns : List String) :
    ((discard q).run t).2.bareAt? ns =
      if q.destination <+: ns ∧ (ns = q.destination → endsOnName q = true) then none
      else t.bareAt? ns := by
  have hdest := hextends.destination_eq
  have hne : q.destination ≠ [] := by
    rw [hdest]
    exact List.append_ne_nil_of_left_ne_nil hroot ks
  cases hnode : t.get? q.destination with
  | none =>
      rw [discard_of_get?_eq_none hextends.absolute hnode]
      split
      · next hgone =>
          obtain ⟨rest, rfl⟩ := hgone.1
          rw [bareAt?, get?_append, hnode]
          rfl
      · rfl
  | some node =>
      have haddress : t.address q = .ok q.destination := by
        rw [hdest] at hnode ⊢
        exact honward.address_eq_ok hp hdir hnode
      cases node with
      | file text =>
          have hks : ks ≠ [] := by
            rintro rfl
            obtain ⟨before, rest, -, hbefore, -⟩ := honward
            obtain ⟨es, -, hes⟩ := (isDir_iff_walk hp hbefore).1 hdir
            rw [hdest, List.append_nil, hes] at hnode
            cases hnode
          rw [discard_file haddress hnode, bareAt?_erase hne (by rw [hnode]; rfl)]
          simp only [honward.endsOnName hks, implies_true, and_true]
      | dir es =>
          have hagain := (address_emptied hextends hroot hway hnode).trans haddress
          rw [discard_dir haddress hnode hagain]
          split
          · next hends =>
              rw [bareAt?_erase hne (by rw [get?_set_self]; rfl), bareAt?_set_empty hne hnode]
              simp only [hends, implies_true, and_true]
              split
              · rfl
              · next hnot => rw [if_neg fun h => hnot h.1]
          · next hends =>
              rw [bareAt?_set_empty hne hnode]
              simp only [hends, Bool.false_eq_true, imp_false]

end

end OnDisk

namespace Session

open FileTree

/-- The root of the output tree and the root of the sources lead to places of which neither is
in the other, and no path to either goes through the output tree. -/
structure Severed (s : Session) : Prop where
  src_absolute : s.srcDir.isAbsolute = true
  out_absolute : s.outDir.isAbsolute = true
  src_not_above : ¬ s.srcDir.destination <+: s.outDir.destination
  src_clear : ∀ ns, s.srcDir.PassesThrough ns → ¬ s.outDir.destination <+: ns
  out_clear : ∀ ns, s.outDir.PassesThrough ns → s.outDir.destination <+: ns →
    ns = s.outDir.destination

instance (s : Session) : Decidable s.Severed :=
  decidable_of_iff (s.srcDir.isAbsolute = true ∧ s.outDir.isAbsolute = true ∧
    ¬ s.srcDir.destination <+: s.outDir.destination ∧
    (∀ ns, s.srcDir.PassesThrough ns → ¬ s.outDir.destination <+: ns) ∧
    ∀ ns, s.outDir.PassesThrough ns →
      (s.outDir.destination <+: ns → ns = s.outDir.destination))
    ⟨fun ⟨ha, hb, hc, hd, he⟩ => ⟨ha, hb, hc, hd, he⟩, fun ⟨ha, hb, hc, hd, he⟩ =>
      ⟨ha, hb, hc, hd, he⟩⟩

variable {s s' : Session} {t : FileTree} {p : Path} {ks ns : List String}

namespace Severed

theorem congr (h : s.Severed) (hroot : s'.root = s.root)
    (hconfiguration : s'.configuration = s.configuration) : s'.Severed := by
  have hsrc : s'.srcDir = s.srcDir := by rw [srcDir, srcDir, hroot, hconfiguration]
  have hout : s'.outDir = s.outDir := by rw [outDir, outDir, hroot, hconfiguration]
  exact ⟨hsrc ▸ h.src_absolute, hout ▸ h.out_absolute, hsrc ▸ hout ▸ h.src_not_above,
    hsrc ▸ hout ▸ h.src_clear,
    hout ▸ h.out_clear⟩

/-- The output tree is not the whole file system. -/
theorem out_ne_root (h : s.Severed) : s.outDir.destination ≠ [] := fun hnil =>
  h.src_clear _ (s.srcDir.passesThrough_destination) (hnil ▸ List.nil_prefix)

/-- The way to a source file does not go through the output tree. -/
theorem way_clear (h : s.Severed) (hp : s.srcDir.Extends ks p) (hns : p.PassesThrough ns) :
    ¬ s.outDir.destination <+: ns := by
  rcases hp.passesThrough hns with hns | ⟨ms, -, rfl⟩
  · exact h.src_clear ns hns
  · intro hout
    rcases List.prefix_or_prefix_of_prefix hout (List.prefix_append s.srcDir.destination ms)
      with hout | hsrc
    · exact h.src_clear _ (s.srcDir.passesThrough_destination) hout
    · exact h.src_not_above hsrc

end Severed

/-- Roots that are written as names are severed if neither is in the other. -/
theorem Apart.severed {src out : List String} (h : s.Apart src out) : s.Severed where
  src_absolute := h.src_leads.isAbsolute
  out_absolute := h.out_leads.isAbsolute
  src_not_above := by
    rw [h.src_leads.destination_eq, h.out_leads.destination_eq]
    exact h.src_not_above
  src_clear ns hns hout := by
    rw [h.out_leads.destination_eq] at hout
    exact h.out_not_above (hout.trans (h.src_leads.around_of_passesThrough hns))
  out_clear ns hns hout := by
    rw [h.out_leads.destination_eq] at hout ⊢
    have hle := h.out_leads.around_of_passesThrough hns
    exact (hout.eq_of_length_le hle.length_le).symm

/-- The place of a source file is found by going on from the root of the output tree. -/
theorem outputPath?_extends_of_absolute (hsrc : s.srcDir.isAbsolute = true)
    (hout : s.outDir.isAbsolute = true) (hp : s.srcDir.Extends ks p) :
    ∃ q, s.outputPath? p = some q ∧ s.outDir.Extends ks q ∧ GoesOn s.outDir ks q := by
  have hsteps : p.pieces.filterMap (·.2) = s.srcDir.pieces.filterMap (·.2) ++ ks.map .name := by
    have hcomponents := hp.components
    rw [Path.components_absolute hp.absolute, Path.components_absolute hsrc,
      List.cons_append] at hcomponents
    exact (List.cons.inj hcomponents).2
  obtain ⟨rel, hrel, hrelative, hnames, hlast⟩ :=
    Path.relativeTo?_steps hp.absolute hsrc hsteps
  have hjoined := Path.isAbsolute_join hout rel.text
  refine ⟨s.outDir.join rel.text, by rw [outputPath?, hrel]; rfl, ⟨hjoined, ?_⟩, ?_⟩
  · rw [Path.components_absolute hjoined, Path.components_absolute hout,
      Path.pieces_join_names hout hrelative hnames, List.cons_append]
  · refine goesOn_join (Path.text_ne_empty hout) hrelative hnames fun hks => hlast ?_
    exact fun hnil => hks (List.map_eq_nil_iff.1 hnil)

theorem outputPath?_extends (h : s.Severed) (hp : s.srcDir.Extends ks p) :
    ∃ q, s.outputPath? p = some q ∧ s.outDir.Extends ks q ∧ GoesOn s.outDir ks q :=
  outputPath?_extends_of_absolute h.src_absolute h.out_absolute hp

/-- The path does not step out again once it is among the sources. -/
def Plain (s : Session) (p : Path) : Prop :=
  p.startsWith s.srcDir = true →
    Component.parent ∉ p.components.drop s.srcDir.components.length

instance (s : Session) (p : Path) : Decidable (s.Plain p) :=
  inferInstanceAs (Decidable (_ → _))

theorem Plain.extends_of_absolute (hp : s.Plain p) (habsolute : s.srcDir.isAbsolute = true)
    (hsrc : p.startsWith s.srcDir = true) : ∃ ks, s.srcDir.Extends ks p := by
  have hnames := hp hsrc
  rw [Path.startsWith, List.isPrefixOf_iff_prefix] at hsrc
  obtain ⟨rest, hrest⟩ := hsrc
  rw [← hrest, List.drop_left] at hnames
  have habs : p.isAbsolute = true := by
    rw [Path.components_absolute habsolute] at hrest
    exact Path.isAbsolute_iff_components.2 ⟨_, hrest.symm⟩
  have hsteps : rest ⊆ p.pieces.filterMap (·.2) := by
    rw [Path.components_absolute habs, Path.components_absolute habsolute] at hrest
    rw [← (List.cons.inj hrest).2]
    exact List.subset_append_right _ rest
  obtain ⟨ks, rfl⟩ := Path.exists_names habs hsteps hnames
  exact ⟨ks, habs, hrest.symm⟩

theorem Plain.extends (hp : s.Plain p) (h : s.Severed) (hsrc : p.startsWith s.srcDir = true) :
    ∃ ks, s.srcDir.Extends ks p :=
  hp.extends_of_absolute h.src_absolute hsrc

theorem Plain.congr (h : s.Plain p) (hroot : s'.root = s.root)
    (hconfiguration : s'.configuration = s.configuration) : s'.Plain p := by
  rw [Plain, srcDir, hroot, hconfiguration]
  exact h

/-- Does what is at the address go when the source file does? -/
def clears (s : Session) (p : Path) (ns : List String) : Bool :=
  (s.outputPath? p).any fun q =>
    q.destination.isPrefixOf ns && (ns != q.destination || endsOnName q)

theorem clears_iff : s.clears p ns = true ↔ ∃ q, s.outputPath? p = some q ∧
    q.destination <+: ns ∧ (ns = q.destination → endsOnName q = true) := by
  rw [clears, Option.any_eq_true]
  refine exists_congr fun q => and_congr_right fun _ => ?_
  rw [Bool.and_eq_true, List.isPrefixOf_iff_prefix, Bool.or_eq_true, bne_iff_ne, ← imp_iff_not_or]

/-- What is below goes too. -/
theorem clears_of_prefix {ms : List String} (h : s.clears p ms = true) (hms : ms <+: ns) :
    s.clears p ns = true := by
  rw [clears_iff] at h ⊢
  obtain ⟨q, hq, hbelow, hends⟩ := h
  refine ⟨q, hq, hbelow.trans hms, ?_⟩
  rintro rfl
  exact hends (hms.eq_of_length_le hbelow.length_le)

theorem clears_below (h : s.Severed) (hplain : s.Plain p) (hns : s.clears p ns = true) :
    s.outDir.destination <+: ns := by
  obtain ⟨q, hq, hbelow, -⟩ := clears_iff.1 hns
  cases hsrc : p.startsWith s.srcDir with
  | false =>
      rw [outputPath?_eq_none hsrc] at hq
      cases hq
  | true =>
      obtain ⟨ks, hks⟩ := hplain.extends h hsrc
      obtain ⟨q', hq', hextends, -⟩ := outputPath?_extends h hks
      rw [hq] at hq'
      cases hq'
      rw [hextends.destination_eq] at hbelow
      exact (List.prefix_append _ ks).trans hbelow

/-- Does what is at the address go with what the change tells of? -/
def tellsCleared (s : Session) (ns : List String) (c : Path × PathChange) : Bool :=
  c.2 == .removed && s.clears c.1 ns

theorem tellsCleared_below (h : s.Severed) {c : Path × PathChange}
    (hplain : c.2 = .removed → s.Plain c.1) (hns : s.tellsCleared ns c = true) :
    s.outDir.destination <+: ns := by
  obtain ⟨hremoved, hclears⟩ := Bool.and_eq_true_iff.1 hns
  exact clears_below h (hplain (beq_iff_eq.1 hremoved)) hclears

theorem tellsCleared_congr (hroot : s'.root = s.root)
    (hconfiguration : s'.configuration = s.configuration) :
    s'.tellsCleared = s.tellsCleared := by
  funext ns c
  rw [tellsCleared, tellsCleared, clears, clears, outputPath?_congr hroot hconfiguration]

section

variable (h : s.Severed) {c : Path × PathChange} (hplain : c.2 = .removed → s.Plain c.1)
  (t : FileTree)
include h hplain

/-- What is told as removed goes from the output tree, if there is one. -/
theorem bareAt?_heed (ns : List String) :
    (s.heed t c).1.bareAt? ns =
      if t.isDir s.outDir && s.tellsCleared ns c then none else t.bareAt? ns := by
  unfold heed tellsCleared
  by_cases hc : c.2 = .removed
  · rw [if_pos hc, forget_tree, hc, beq_self_eq_true, Bool.true_and]
    unfold removeOutput clears
    cases hsrc : c.1.startsWith s.srcDir with
    | false =>
        rw [outputPath?_eq_none hsrc, Option.any_none, Bool.and_false]
        rfl
    | true =>
        obtain ⟨ks, hks⟩ := (hplain hc).extends h hsrc
        obtain ⟨q, hq, hextends, honward⟩ := outputPath?_extends h hks
        rw [hq, Option.any_some]
        cases hdir : t.isDir s.outDir with
        | false =>
            obtain ⟨fault, hfault⟩ := honward.address_eq_error h.out_absolute hdir
            rw [OnDisk.discard_eq_self hfault]
            rfl
        | true =>
            rw [OnDisk.bareAt?_discard hextends h.out_ne_root h.out_clear h.out_absolute honward
              hdir, Bool.true_and]
            simp only [Bool.and_eq_true, List.isPrefixOf_iff_prefix, Bool.or_eq_true, bne_iff_ne,
              ← imp_iff_not_or]
  · rw [if_neg hc, beq_eq_false_iff_ne.2 hc, Bool.false_and, Bool.and_false]
    rfl

/-- The root of the output tree is there still, unless it is what goes. -/
theorem isDir_heed
    (hout : (t.isDir s.outDir && s.tellsCleared s.outDir.destination c) = false) :
    (s.heed t c).1.isDir s.outDir = t.isDir s.outDir := by
  refine (isFile_eq_of_way h.out_absolute fun ns hns => ?_).2
  rw [bareAt?_heed h hplain, if_neg]
  intro hgone
  have hbelow := tellsCleared_below h hplain (Bool.and_eq_true_iff.1 hgone).2
  rw [h.out_clear ns hns hbelow, hout] at hgone
  cases hgone

/-- The entries of directories have names of their own still. -/
theorem sound_heed (hsound : t.Sound) : (s.heed t c).1.Sound := by
  rw [heed]
  split
  · next hc =>
    rw [forget_tree]
    unfold removeOutput
    cases hsrc : c.1.startsWith s.srcDir with
    | false =>
        rw [outputPath?_eq_none hsrc]
        exact hsound
    | true =>
        obtain ⟨ks, hks⟩ := (hplain hc).extends h hsrc
        obtain ⟨q, hq, hextends, -⟩ := outputPath?_extends h hks
        rw [hq]
        exact OnDisk.sound_discard hextends.absolute hsound
  · exact hsound

end

/-- What noting changes leaves of the files is told by address, and so neither by the order of
the changes nor by how often one of them is told. -/
theorem bareAt?_noteChanges (h : s.Severed) {changes : List (Path × PathChange)}
    (hplain : ∀ c ∈ changes, c.2 = .removed → s.Plain c.1) (plan : Plan) (t : FileTree)
    (ns : List String) :
    (noteChanges changes plan s t).1.bareAt? ns =
      if t.isDir s.outDir && changes.any (s.tellsCleared ns) then none else t.bareAt? ns := by
  induction changes generalizing plan s t with
  | nil =>
      rw [List.any_nil, Bool.and_false]
      rfl
  | cons c changes ih =>
      obtain ⟨hc, hplain⟩ := List.forall_mem_cons.1 hplain
      obtain ⟨hroot, hconfiguration⟩ := s.heed_same t c
      have hout : (s.heed t c).2.1.outDir = s.outDir := by
        rw [outDir, outDir, hroot, hconfiguration]
      have hplain' : ∀ c' ∈ changes, c'.2 = .removed → (s.heed t c).2.1.Plain c'.1 :=
        fun c' hc' hremoved => (hplain c' hc' hremoved).congr hroot hconfiguration
      rw [noteChanges_cons]
      dsimp only
      rw [ih (h.congr hroot hconfiguration) hplain', hout, tellsCleared_congr hroot hconfiguration,
        bareAt?_heed h hc, List.any_cons]
      cases hgone : t.isDir s.outDir && s.tellsCleared s.outDir.destination c with
      | false =>
          rw [isDir_heed h hc t hgone]
          cases t.isDir s.outDir <;> cases s.tellsCleared ns c <;>
            cases changes.any (s.tellsCleared ns) <;> rfl
      | true =>
          -- the whole output tree goes, and with it what goes later
          obtain ⟨hdir, htold⟩ := Bool.and_eq_true_iff.1 hgone
          rw [hdir]
          cases hlater : changes.any (s.tellsCleared ns) with
          | false => simp
          | true =>
              obtain ⟨c', hmem, hlater⟩ := List.any_eq_true.1 hlater
              have hbelow := tellsCleared_below h (hplain c' hmem) hlater
              obtain ⟨hremoved, hclears⟩ := Bool.and_eq_true_iff.1 htold
              have hnow : s.tellsCleared ns c = true :=
                Bool.and_eq_true_iff.2 ⟨hremoved, clears_of_prefix hclears hbelow⟩
              simp [hnow]

theorem sound_noteChanges (h : s.Severed) {changes : List (Path × PathChange)}
    (hplain : ∀ c ∈ changes, c.2 = .removed → s.Plain c.1) (plan : Plan) (hsound : t.Sound) :
    (noteChanges changes plan s t).1.Sound := by
  induction changes generalizing plan s t with
  | nil => exact hsound
  | cons c changes ih =>
      obtain ⟨hc, hplain⟩ := List.forall_mem_cons.1 hplain
      obtain ⟨hroot, hconfiguration⟩ := s.heed_same t c
      rw [noteChanges_cons]
      exact ih (h.congr hroot hconfiguration)
        (fun c' hc' hremoved => (hplain c' hc' hremoved).congr hroot hconfiguration) _
        (sound_heed h hc t hsound)

end Session

end SiteMacros
