import SiteMacros.Proofs.Searches

/-!
# Import patterns that stay in a directory

An import pattern is searched for as the text of its base and its rest. `staysIn` says of
it what `leadsInto` says of the steps of this text; so it finds the same files in file
trees that agree on the directory, each of them in the directory (`findFiles_congr`).

The base itself is a directory that the pattern leads into, whatever characters are in its
path; and then it goes on with its rest (`leadsTo_base`).
-/

namespace SiteMacros

open FileTree (stepOf Shared AgreeBelow)

namespace ImportPattern

/-- Does a search for the pattern stay in the directory, once it has led there? A pattern that
is none is not searched for. -/
def staysIn (p : ImportPattern) (dir : Path) : Bool :=
  match Glob.stepsOf p.globText with
  | .error _ => true
  | .ok steps =>
      if Text.startsWith "/" p.globText then
        match dir.components with
        | .root :: cs => Glob.leadsInto steps cs
        | _ => false
      else Glob.leadsInto steps dir.components

/-- Does a search for the pattern lead into the directory, to steps of which `last` holds? -/
def leadsTo (last : List Glob.Step → Bool) (p : ImportPattern) (dir : Path) : Bool :=
  match Glob.stepsOf p.globText with
  | .error _ => true
  | .ok steps =>
      if Text.startsWith "/" p.globText then
        match dir.components with
        | .root :: cs => Glob.leadsThrough last steps cs
        | _ => false
      else Glob.leadsThrough last steps dir.components

theorem staysIn_eq (p : ImportPattern) (dir : Path) :
    p.staysIn dir = p.leadsTo (Glob.stays · 0) dir := by
  rw [staysIn, leadsTo]
  simp only [Glob.leadsInto_eq]

/-- Is a path found if the search for the pattern leads there? -/
def accepts (p : ImportPattern) (t : FileTree) (q : Path) : Bool :=
  (!Text.endsWith "/" p.globText && !inNodeModules p.base q) && t.isFile q

theorem findFiles_eq (p : ImportPattern) (t : FileTree) :
    p.findFiles t = match Glob.stepsOf p.globText with
      | .error e => .error (.badPattern p.rest e)
      | .ok steps =>
          let start : Path := if Text.startsWith "/" p.globText then ⟨"/"⟩ else ⟨""⟩
          .ok (sortPaths ((Glob.walkSteps t steps start).filter (p.accepts t))) := by
  rw [findFiles, Glob.search]
  cases Glob.stepsOf p.globText with
  | error e => rfl
  | ok steps =>
      dsimp only [bind, Except.bind, pure, Except.pure]
      have haccepts : p.accepts t = fun q =>
          (!Text.endsWith "/" p.globText && !inNodeModules p.base q) && t.isFile q := rfl
      rw [haccepts]
      cases Text.endsWith "/" p.globText with
      | true =>
          -- what is there as a directory is no file
          simp only [if_true, List.filter_filter]
          refine congrArg (fun found => Except.ok (sortPaths found)) (List.filter_congr fun q _ => ?_)
          cases hfile : t.isFile q with
          | true => simp [FileTree.isDir_of_isFile hfile]
          | false => simp
      | false => simp

section

variable {t t' : FileTree} {home : List String}

theorem components_of_relative {dir : Path} (hdir : dir.text ≠ "")
    (h : ∀ c cs, dir.components = c :: cs → c ≠ .root ∧ c ≠ .here) :
    dir.components = (FileTree.steps dir).filterMap stepOf ∧ dir.components ≠ [] := by
  have hsteps := FileTree.steps_eq hdir
  obtain ⟨q, qs, hq⟩ := List.exists_cons_of_ne_nil (Text.pieces_ne_nil '/' dir.text.toList)
  rw [hq, List.map_cons] at hsteps
  have hcomponents := FileTree.components_of_steps hsteps
  rw [FileTree.front] at hcomponents
  split at hcomponents
  · exact absurd rfl (h _ _ hcomponents).1
  · next hempty =>
      split at hcomponents
      · exact absurd rfl (h _ _ hcomponents).2
      · next hdot =>
          cases hstep : stepOf (String.ofList q) with
          | none => exact ((FileTree.idle_of_stepOf hstep).elim hempty hdot).elim
          | some c =>
              rw [hstep] at hcomponents
              rw [hsteps, List.filterMap_cons_some hstep, hcomponents]
              exact ⟨rfl, List.cons_ne_nil _ _⟩

theorem absolute_of_root {dir : Path} {cs : List Component} (h : dir.components = .root :: cs) :
    dir.isAbsolute = true ∧ (FileTree.steps dir).filterMap stepOf = cs := by
  rw [Path.components] at h
  split at h
  · next habs => exact ⟨habs, (FileTree.steps_absolute habs).trans (List.cons.inj h).2⟩
  · have hmem : Component.root ∈ dir.pieces.filterMap (·.2) := by
      rw [h]
      exact List.mem_cons_self
    obtain ⟨q, hq, hroot⟩ := List.mem_filterMap.1 hmem
    exact absurd (hroot ▸ List.mem_map_of_mem hq) (Path.root_not_mem_pieces dir)

theorem steps_of_absolute {dir : Path} (h : dir.isAbsolute = true) :
    ∃ rest, FileTree.steps dir = "" :: rest := by
  obtain ⟨cs, hcs⟩ := dir.isAbsolute_iff.1 h
  have hne : dir.text ≠ "" := by
    intro hempty
    rw [hempty] at hcs
    cases hcs
  rw [FileTree.steps_eq hne, hcs, Text.pieces, if_pos rfl]
  exact ⟨_, rfl⟩

theorem reach_root {rest dest : List String} (h : t.walk [] ("" :: rest) = .ok dest) :
    t.reach ⟨"/"⟩ = .ok [] := by
  have hsplit := t.walk_append [] [""] rest
  have hroot := t.walk_append [] [""] [""]
  rw [List.singleton_append] at hsplit
  cases hfirst : t.walk [] [""] with
  | error e =>
      rw [h, hfirst] at hsplit
      cases hsplit
  | ok here =>
      have hhere : here = [] := FileTree.walk_eq_follow hfirst
      subst hhere
      rw [hfirst] at hroot
      exact hroot.trans hfirst

/-- Searches that start at the root or nowhere and lead into a directory come to what is
related, if the walks do that start there. -/
theorem related_walkSteps {R : List Path → List Path → Prop} {last : List Glob.Step → Bool}
    (hnil : R [] []) (hsound : t.Sound) (hsound' : t'.Sound) {dir : Path}
    (hdir : Shared t t' dir.components home dir)
    (hlast : ∀ steps q, Glob.ArePieces steps → Shared t t' dir.components (home ++ []) q →
      last steps = true → R (Glob.walkSteps t steps q) (Glob.walkSteps t' steps q))
    {steps : List Glob.Step} (hpieces : Glob.ArePieces steps) {absolute : Bool}
    (hleads : (if absolute then
        match dir.components with
        | .root :: cs => Glob.leadsThrough last steps cs
        | _ => false
      else Glob.leadsThrough last steps dir.components) = true) :
    let start : Path := if absolute then ⟨"/"⟩ else ⟨""⟩
    R (Glob.walkSteps t steps start) (Glob.walkSteps t' steps start) := by
  have hinto : Glob.RelatedInto R last t t' dir.components home steps :=
    Glob.relatedInto hnil hsound hsound' hlast hpieces
  cases absolute with
  | false =>
      have hthrough : Glob.leadsThrough last steps dir.components = true := hleads
      have hfront : ∀ c cs, dir.components = c :: cs → c ≠ .root ∧ c ≠ .here := by
        intro c cs hcs
        rw [hcs] at hthrough
        exact Glob.ne_front_of_leadsThrough hthrough
      obtain ⟨hcomponents, hne⟩ := components_of_relative hdir.text_ne hfront
      refine hinto [] dir.components ⟨""⟩ ?_ hthrough
      exact ⟨rfl, rfl, ⟨_, hdir.left, hcomponents.symm⟩, ⟨_, hdir.right, hcomponents.symm⟩, rfl,
        .inr hne⟩
  | true =>
      rw [if_pos rfl] at hleads
      split at hleads
      · next cs hcs =>
          obtain ⟨habs, hsteps⟩ := absolute_of_root hcs
          have hroot : ∀ {u : FileTree}, u.reach dir = .ok home → u.reach ⟨"/"⟩ = .ok [] := by
            intro u hu
            obtain ⟨rest, hrest⟩ := steps_of_absolute habs
            rw [FileTree.reach, hrest] at hu
            exact reach_root hu
          have hahead : ∀ {u : FileTree}, u.reach dir = .ok home → Glob.Ahead u [] cs home :=
            fun hu => ⟨FileTree.steps dir, hu, hsteps⟩
          refine hinto [] cs ⟨"/"⟩ ?_ hleads
          exact ⟨hroot hdir.left, hroot hdir.right, hahead hdir.left, hahead hdir.right, hcs.symm,
            .inl (by decide)⟩
      · cases hleads

/-- A pattern that stays in a directory finds the same files, all of them in the directory,
in file trees that agree on it. -/
theorem findFiles_congr (hsound : t.Sound) (hsound' : t'.Sound) {p : ImportPattern} {dir : Path}
    (hstays : p.staysIn dir = true) (h : t.AgreeBelow t' dir) :
    p.findFiles t' = p.findFiles t ∧
      ∀ files, p.findFiles t = .ok files → ∀ q ∈ files, q.startsWith dir = true := by
  obtain ⟨home, hdir, hsame⟩ := h.shared
  rw [staysIn_eq, leadsTo] at hstays
  rw [findFiles_eq, findFiles_eq]
  cases hsteps : Glob.stepsOf p.globText with
  | error e => exact ⟨rfl, fun files hfiles => by cases hfiles⟩
  | ok steps =>
      rw [hsteps] at hstays
      have hpieces : Glob.ArePieces steps := fun name hname =>
        Glob.slash_not_mem_of_literal hsteps hname
      have hfound := related_walkSteps .nil hsound hsound' hdir
        (fun steps q hpieces hq hstays => Glob.foundBelow hsame hsound hsound' steps hpieces 0 [] q
          hq (Nat.le_refl 0) hstays) hpieces hstays
      have hfiles := hfound.filter (p.accepts t) (p.accepts t') fun ms q hq => by
        rw [accepts, accepts, hq.isFile_eq hsame]
      dsimp only at hfiles ⊢
      rw [hfiles.eq]
      refine ⟨rfl, fun files hsorted q hq => ?_⟩
      rw [← Except.ok.inj hsorted, sortPaths, (sorted_perm _ _).mem_iff] at hq
      obtain ⟨ms, hms⟩ := hfiles.shared q hq
      rw [Path.startsWith, List.isPrefixOf_iff_prefix]
      exact hms.below

/-! ## The base of a pattern -/

theorem only?_escapeToken (q : List Char) : Glob.only? (q.map Glob.escapeToken) = some q := by
  induction q with
  | nil => rfl
  | cons c q ih =>
      rw [List.map_cons, Glob.escapeToken]
      split <;> rw [Glob.only?, ih] <;> rfl

theorem only?_char (cs : List Char) : Glob.only? (cs.map .char) = some cs := by
  induction cs with
  | nil => rfl
  | cons c cs ih =>
      rw [List.map_cons, Glob.only?, ih]
      rfl

theorem way?_escapedStep (q : List Char) :
    (Glob.escapedStep q).way? = some (stepOf (String.ofList q)) := by
  rw [Glob.escapedStep, Glob.Step.ofTokens, if_neg (Glob.map_escapeToken_ne_deep q)]
  split
  · next cs hcs =>
      have honly := only?_escapeToken q
      rw [Glob.plain?_eq_some hcs, only?_char] at honly
      rw [Option.some.inj honly]
      rfl
  · next hspecial =>
      have hname : ∀ s : String, (Glob.plain? (s.toList.map Glob.escapeToken)).isSome = true →
          String.ofList q ≠ s := by
        rintro s hs rfl
        rw [String.toList_ofList, hspecial] at hs
        cases hs
      rw [Glob.Step.way?, only?_escapeToken, FileTree.stepOf_of_name (hname "" rfl)
        (hname "." (by decide)) (hname ".." (by decide))]
      rfl

/-- A piece that does not count makes no difference to the steps that are left. -/
def SkipsIdle (last : List Glob.Step → Bool) : Prop :=
  ∀ name rest, stepOf name = none → last (.literal name :: rest) = last rest

/-- A step that can lead one way only leads that way. -/
theorem leadsThrough_of_way {last : List Glob.Step → Bool} (hlast : SkipsIdle last)
    {s : Glob.Step} {way : Option Component} (h : s.way? = some way) (rest : List Glob.Step)
    (cs : List Component) :
    Glob.leadsThrough last (s :: rest) (way.toList ++ cs) = Glob.leadsThrough last rest cs := by
  cases way with
  | some c =>
      show Glob.leadsThrough last (s :: rest) (c :: cs) = _
      rw [Glob.leadsThrough, h]
      simp
  | none =>
      cases cs with
      | cons c cs =>
          show Glob.leadsThrough last (s :: rest) (c :: cs) = _
          rw [Glob.leadsThrough, h]
      | nil =>
          cases s with
          | literal name =>
              show Glob.leadsThrough last (.literal name :: rest) [] = _
              rw [Glob.leadsThrough, Glob.leadsThrough]
              exact hlast name rest (Option.some.inj h)
          | wild ts =>
              obtain ⟨cs, -, hcs⟩ := Option.map_eq_some_iff.1 h
              cases hcs
          | deep => cases h

/-- Escaped pieces of a path lead through its components. -/
theorem leadsThrough_escaped {last : List Glob.Step → Bool} (hlast : SkipsIdle last)
    (qs : List (List Char)) (steps : List Glob.Step) :
    Glob.leadsThrough last (qs.map Glob.escapedStep ++ steps)
      ((qs.map String.ofList).filterMap stepOf) = last steps := by
  induction qs with
  | nil =>
      rw [List.map_nil, List.map_nil, List.nil_append, List.filterMap_nil, Glob.leadsThrough]
  | cons q qs ih =>
      have hcomponents : ((q :: qs).map String.ofList).filterMap stepOf =
          (stepOf (String.ofList q)).toList ++ (qs.map String.ofList).filterMap stepOf := by
        rw [List.map_cons, List.filterMap_cons]
        cases stepOf (String.ofList q) <;> rfl
      rw [hcomponents, List.map_cons, List.cons_append,
        leadsThrough_of_way hlast (way?_escapedStep q), ih]

/-- Slashes at the end of a path do not count. -/
theorem filterMap_pieces_dropEndWhile (cs : List Char) :
    ((Text.pieces '/' (Text.dropEndWhile (· == '/') cs)).map String.ofList).filterMap stepOf =
      ((Text.pieces '/' cs).map String.ofList).filterMap stepOf := by
  induction cs using List.reverseRecOn with
  | nil => rfl
  | append_singleton cs c ih =>
      rw [Text.dropEndWhile_concat]
      split
      · next hslash =>
          rw [beq_iff_eq] at hslash
          subst hslash
          rw [ih, Text.pieces_append_sep, List.map_append, List.filterMap_append]
          exact (List.append_nil _).symm
      · rfl

theorem toList_globText {p : ImportPattern} (h : p.rest ≠ "") :
    p.globText.toList =
      (Text.dropEndWhile (· == '/') p.base.text.toList).flatMap Glob.escapeChar ++
        '/' :: p.rest.toList := by
  rw [globText, if_neg (by rwa [String.isEmpty_iff]), String.toList_append, String.toList_append,
    Text.trimEnd, String.toList_ofList, Glob.escape, String.toList_ofList,
    Glob.dropEndWhile_escape]
  simp

theorem componentsOf_absolute {pattern : String} {cs : List Char}
    (h : pattern.toList = '/' :: cs) :
    Text.startsWith "/" pattern = true ∧
      Glob.componentsOf pattern = Glob.cut (String.ofList cs) := by
  refine ⟨?_, ?_⟩
  · rw [Text.startsWith, h]
    rfl
  · rw [Glob.componentsOf, Text.dropStart?, h]
    rfl

theorem componentsOf_relative {pattern : String} {c : Char} {cs : List Char}
    (h : pattern.toList = c :: cs) (hc : c ≠ '/') :
    Text.startsWith "/" pattern = false ∧ Glob.componentsOf pattern = Glob.cut pattern := by
  refine ⟨?_, ?_⟩
  · rw [Text.startsWith, h]
    show ('/' == c && [].isPrefixOf cs) = false
    rw [beq_eq_false_iff_ne.2 (Ne.symm hc), Bool.false_and]
  · rw [Glob.componentsOf, Text.dropStart?, h]
    simp [Text.after?, Ne.symm hc]

/-- The steps of the rest of a pattern, before `**` are put together. -/
def RestSteps (p : ImportPattern) (ss : List Glob.Step) : Prop :=
  (Glob.cut p.rest).map (fun c => (Glob.compile c).map Glob.Step.ofTokens) = ss.map .ok

/-- The steps of the rest of the pattern are as they should be. -/
def RestHas (last : List Glob.Step → Bool) (p : ImportPattern) : Prop :=
  ∀ ss, p.RestSteps ss → last (Glob.collapse ss) = true

theorem stepsOf_absolute {p : ImportPattern} (hrest : p.rest ≠ "") {cs : List Char}
    (hbase : p.base.text.toList = '/' :: cs) {steps : List Glob.Step}
    (h : Glob.stepsOf p.globText = .ok steps) :
    Text.startsWith "/" p.globText = true ∧ ∃ ss, p.RestSteps ss ∧
      steps = (if Text.dropEndWhile (· == '/') cs = [] then []
        else (Text.pieces '/' (Text.dropEndWhile (· == '/') cs)).map Glob.escapedStep) ++
          Glob.collapse ss := by
  have htext := toList_globText hrest
  rw [hbase, Text.dropEndWhile_cons] at htext
  by_cases hnil : Text.dropEndWhile (· == '/') cs = []
  · rw [if_pos hnil] at htext
    obtain ⟨hstarts, hcomponents⟩ := componentsOf_absolute htext
    rw [String.ofList_toList] at hcomponents
    obtain ⟨ss, hss, rfl⟩ := Glob.stepsOf_eq_ok h
    rw [hcomponents] at hss
    rw [if_pos hnil]
    exact ⟨hstarts, ss, hss, rfl⟩
  · rw [if_neg hnil, List.flatMap_cons, List.append_assoc] at htext
    have hslash : p.globText.toList = '/' ::
        ((Text.dropEndWhile (· == '/') cs).flatMap Glob.escapeChar ++ '/' :: p.rest.toList) :=
      htext
    obtain ⟨hstarts, hcomponents⟩ := componentsOf_absolute hslash
    rw [Glob.cut_append, String.ofList_toList] at hcomponents
    obtain ⟨ss, hss, rfl⟩ := Glob.stepsOf_escaped hcomponents h
    rw [if_neg hnil]
    exact ⟨hstarts, ss, hss, rfl⟩

theorem stepsOf_relative {p : ImportPattern} (hrest : p.rest ≠ "") {c : Char} {cs : List Char}
    (hbase : p.base.text.toList = c :: cs) (hc : c ≠ '/') {steps : List Glob.Step}
    (h : Glob.stepsOf p.globText = .ok steps) :
    Text.startsWith "/" p.globText = false ∧ ∃ ss, p.RestSteps ss ∧
      steps = (Text.pieces '/' (Text.dropEndWhile (· == '/') p.base.text.toList)).map
        Glob.escapedStep ++ Glob.collapse ss := by
  have htext := toList_globText hrest
  -- the first character is that of the base, or the bracket that escapes it
  obtain ⟨cs', hdrop⟩ : ∃ cs', Text.dropEndWhile (· == '/') p.base.text.toList = c :: cs' := by
    rw [hbase, Text.dropEndWhile_cons, beq_eq_false_iff_ne.2 hc]
    split
    · exact ⟨[], rfl⟩
    · exact ⟨_, rfl⟩
  obtain ⟨d, ds, hd⟩ : ∃ d ds, Glob.escapeChar c = d :: ds := by
    rw [Glob.escapeChar]
    split <;> exact ⟨_, _, rfl⟩
  have hne : d ≠ '/' := by
    rintro rfl
    refine hc (Glob.slash_mem_escapeChar.1 ?_)
    rw [hd]
    exact List.mem_cons_self
  have hfirst : p.globText.toList = d :: (ds ++ cs'.flatMap Glob.escapeChar ++
      '/' :: p.rest.toList) := by
    rw [htext, hdrop, List.flatMap_cons, hd]
    simp
  obtain ⟨hstarts, hcomponents⟩ := componentsOf_relative hfirst hne
  have hglob : p.globText = String.ofList
      ((Text.dropEndWhile (· == '/') p.base.text.toList).flatMap Glob.escapeChar ++
        '/' :: p.rest.toList) := by
    rw [← htext, String.ofList_toList]
  rw [hglob, Glob.cut_append, String.ofList_toList, ← hglob] at hcomponents
  obtain ⟨ss, hss, rfl⟩ := Glob.stepsOf_escaped hcomponents h
  exact ⟨hstarts, ss, hss, rfl⟩

/-- A pattern leads to its base, and then through its rest. -/
theorem leadsTo_base {last : List Glob.Step → Bool} (hlast : SkipsIdle last) {p : ImportPattern}
    (hrest : p.rest ≠ "") (hhas : p.RestHas last) (hbase : p.base.text ≠ "")
    (hfront : ∀ cs, p.base.components ≠ .here :: cs) : p.leadsTo last p.base = true := by
  rw [leadsTo]
  cases hsteps : Glob.stepsOf p.globText with
  | error e => rfl
  | ok steps =>
      dsimp only
      obtain ⟨c, cs, hcs⟩ := List.exists_cons_of_ne_nil
        (fun hnil => hbase (String.toList_eq_nil_iff.1 hnil) : p.base.text.toList ≠ [])
      by_cases hslash : c = '/'
      · subst hslash
        have hpieces : FileTree.steps p.base = "" :: (Text.pieces '/' cs).map String.ofList := by
          rw [FileTree.steps_eq hbase, hcs, Text.pieces, if_pos rfl]
          rfl
        have hcomponents : p.base.components =
            .root :: ((Text.pieces '/' cs).map String.ofList).filterMap stepOf :=
          FileTree.components_of_steps hpieces
        obtain ⟨hstarts, ss, hss, rfl⟩ := stepsOf_absolute hrest hcs hsteps
        rw [hstarts, if_pos rfl, hcomponents, ← filterMap_pieces_dropEndWhile]
        dsimp only
        split
        · next hnil =>
            rw [hnil]
            show Glob.leadsThrough last (Glob.collapse ss) [] = true
            rw [Glob.leadsThrough]
            exact hhas ss hss
        · rw [leadsThrough_escaped hlast]
          exact hhas ss hss
      · have hnames : ∀ way ways, p.base.components = way :: ways → way ≠ .root ∧ way ≠ .here := by
          intro way ways hways
          refine ⟨?_, ?_⟩
          · rintro rfl
            obtain ⟨cs', hcs'⟩ := p.base.isAbsolute_iff.1 (absolute_of_root hways).1
            rw [hcs] at hcs'
            exact hslash (List.cons.inj hcs').1
          · rintro rfl
            exact hfront _ hways
        obtain ⟨hstarts, ss, hss, rfl⟩ := stepsOf_relative hrest hcs hslash hsteps
        rw [hstarts, if_neg Bool.false_ne_true, (components_of_relative hbase hnames).1,
          FileTree.steps_eq hbase, ← filterMap_pieces_dropEndWhile, leadsThrough_escaped hlast]
        exact hhas ss hss

theorem head_pieces_dropEndWhile {cs q : List Char} {qs : List (List Char)} (hq : q ≠ [])
    (h : Text.pieces '/' cs = q :: qs) :
    ∃ qs', Text.pieces '/' (Text.dropEndWhile (· == '/') cs) = q :: qs' := by
  induction cs using List.reverseRecOn generalizing qs with
  | nil => exact ⟨qs, h⟩
  | append_singleton cs c ih =>
      rw [Text.dropEndWhile_concat]
      split
      · next hslash =>
          rw [beq_iff_eq] at hslash
          subst hslash
          rw [Text.pieces_append_sep] at h
          obtain ⟨r, rs, hrs⟩ := List.exists_cons_of_ne_nil (Text.pieces_ne_nil '/' cs)
          rw [hrs, List.cons_append] at h
          obtain ⟨rfl, -⟩ := List.cons.inj h
          exact ih hrs
      · exact ⟨qs, h⟩

theorem pieces_of_here {dir : Path} (hdir : dir.text ≠ "") {cs : List Component}
    (hfront : dir.components = .here :: cs) :
    ∃ qs, Text.pieces '/' dir.text.toList = ['.'] :: qs := by
  have hpieces := FileTree.steps_eq hdir
  obtain ⟨q, qs, hq⟩ := List.exists_cons_of_ne_nil (Text.pieces_ne_nil '/' dir.text.toList)
  rw [hq, List.map_cons] at hpieces
  have hcomponents := FileTree.components_of_steps hpieces
  rw [hfront, FileTree.front] at hcomponents
  refine ⟨qs, ?_⟩
  rw [hq]
  split at hcomponents
  · cases hcomponents
  · next hempty =>
      split at hcomponents
      · next hdot =>
          have hlist := congrArg String.toList hdot
          rw [String.toList_ofList] at hlist
          rw [hlist]
          rfl
      · next hdot =>
          cases hstep : stepOf (String.ofList q) with
          | none => exact ((FileTree.idle_of_stepOf hstep).elim hempty hdot).elim
          | some c =>
              rw [hstep] at hcomponents
              obtain ⟨rfl, -⟩ := List.cons.inj hcomponents
              rcases FileTree.stepOf_eq_some hstep with ⟨-, hc⟩ | ⟨-, hc⟩ <;> cases hc

/-- From a base that starts with a `.` nothing is found: a relative search starts where no
directory is, and `.` asks for one. -/
theorem findFiles_of_here {p : ImportPattern} (hrest : p.rest ≠ "") (hbase : p.base.text ≠ "")
    {cs : List Component} (hfront : p.base.components = .here :: cs) :
    p.findFiles t' = p.findFiles t := by
  obtain ⟨qs, hqs⟩ := pieces_of_here hbase hfront
  obtain ⟨qs', hqs'⟩ := head_pieces_dropEndWhile (List.cons_ne_nil '.' []) hqs
  obtain ⟨c, ds, hcs⟩ := List.exists_cons_of_ne_nil
    (fun hnil => hbase (String.toList_eq_nil_iff.1 hnil) : p.base.text.toList ≠ [])
  have hslash : c ≠ '/' := by
    rintro rfl
    rw [hcs, Text.pieces, if_pos rfl] at hqs
    cases hqs
  rw [findFiles, findFiles, Glob.search, Glob.search]
  cases hsteps : Glob.stepsOf p.globText with
  | error e => rfl
  | ok steps =>
      obtain ⟨hstarts, ss, -, rfl⟩ := stepsOf_relative hrest hcs hslash hsteps
      have hdot : Glob.escapedStep ['.'] = .literal "." := by decide
      have hnothing : ∀ u : FileTree, Glob.walkSteps u ((Text.pieces '/'
          (Text.dropEndWhile (· == '/') p.base.text.toList)).map Glob.escapedStep ++
            Glob.collapse ss) ⟨""⟩ = [] := by
        intro u
        rw [hqs', List.map_cons, hdot, List.cons_append]
        refine Glob.walkSteps_empty fun name hname => ?_
        cases hname
        exact .inr (.inl rfl)
      dsimp only [bind, Except.bind, pure, Except.pure]
      rw [hstarts, if_neg Bool.false_ne_true, hnothing, hnothing]
      simp

theorem restHas_of_steps {last : List Glob.Step → Bool} {p : ImportPattern} {ss : List Glob.Step}
    (h : p.RestSteps ss) (hlast : last (Glob.collapse ss) = true) : p.RestHas last := by
  intro ss' hss'
  have heq : ss' = ss :=
    List.map_inj_right (fun _ _ h => Except.ok.inj h) |>.1 (hss'.symm.trans h)
  rwa [heq]

end

end ImportPattern

end SiteMacros
