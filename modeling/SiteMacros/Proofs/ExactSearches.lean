import SiteMacros.Proofs.FoundFiles
import SiteMacros.Proofs.ValidPatterns

/-!
# Exact searches

A search for a pattern finds the files below its base that the pattern asks for, and nothing
else (`ImportPattern.findFiles_exact`). The directory that the pattern is seen from has no part
in this, whatever it is called: its path is escaped, and a `node_modules` in it is not looked
at. A file that the pattern matches in one way is found once. That holds for all files if there
is no more than one `**`, and then the paths are in strict order. Nothing sorts out what is
found twice, and a walk with two of them may come to a file twice
(`ImportPattern.findFiles_repeats_and_strays`).

A component that starts with a dot of its own is matched with `.` and `..` too, so that `.*` in
front of another component leads out of the base. Such patterns are left out here
(`Glob.strays`).
-/

namespace SiteMacros

/-- There is a file at these names below a directory. -/
def FileTree.HasFileBelow (t : FileTree) (dir : Path) (ns : List String) : Prop :=
  ∃ node, t.find dir = .ok node ∧ (node.textAt? ns).isSome = true

theorem FileTree.hasFileBelow_nil {t : FileTree} {dir : Path} :
    t.HasFileBelow dir [] ↔ t.isFile dir = true := by
  rw [HasFileBelow, isFile]
  cases t.find dir with
  | error e =>
      refine iff_of_false ?_ Bool.false_ne_true
      rintro ⟨node, hnode, -⟩
      cases hnode
  | ok node =>
      cases node with
      | dir es =>
          refine iff_of_false ?_ Bool.false_ne_true
          rintro ⟨node, hnode, hfile⟩
          cases hnode
          cases hfile
      | file text => exact iff_of_true ⟨_, rfl, rfl⟩ rfl

namespace Glob

variable {t : FileTree} {p : Path}

/-- Of a text that is not empty some component is left. -/
theorem cut_ne_nil {s : String} (h : s ≠ "") : cut s ≠ [] := by
  intro hcut
  have hsplit : (Text.pieces '/' s.toList).map String.ofList = [""] := by
    rw [cut] at hcut
    split at hcut
    · next hlast =>
        obtain ⟨front, hfront⟩ := List.getLast?_eq_some_iff.1 hlast
        rw [hfront, List.dropLast_concat] at hcut
        rw [hcut] at hfront
        exact hfront
    · exact absurd (List.map_eq_nil_iff.1 hcut) (Text.pieces_ne_nil _ _)
  obtain ⟨q, hq, hempty⟩ := List.map_eq_singleton_iff.1 hsplit
  have hjoin := Text.join_pieces '/' s.toList
  rw [hq, String.ofList_eq_empty_iff.1 hempty] at hjoin
  exact h (String.toList_eq_nil_iff.1 hjoin.symm)

theorem not_matches_nil (s : Step) (rest : List Step) : ¬ Matches (s :: rest) [] := by
  induction rest generalizing s with
  | nil => nofun
  | cons next rest ih =>
      intro h
      cases h with
      | again h => exact ih .deep h

/-- Steps ask for a directory to be walked in. -/
theorem walkSteps_of_not_dir (hp : p.text ≠ "") (h : ∀ es, t.find p ≠ .ok (.dir es)) {s : Step}
    (hs : ∀ name, s = .literal name → '/' ∉ name.toList) (rest : List Step) :
    walkSteps t (s :: rest) p = [] := by
  cases hfind : t.find p with
  | error e =>
      refine walkSteps_of_not_exists hp ?_ hs rest
      rw [FileTree.exists?, hfind]
  | ok node =>
      cases node with
      | dir es => exact absurd hfind (h es)
      | file text =>
          cases s with
          | literal name =>
              rw [walkSteps_literal (.inl hp), exists?_join_of_not_dir hp (hs name rfl) h]
              rfl
          | wild ts => rw [walkSteps, hfind]
          | deep => cases rest <;> rw [walkSteps, hfind] <;> rfl

end Glob

namespace ImportPattern

/-- The file at these names below the base is one to look at. -/
structure LooksAt (p : ImportPattern) (t : FileTree) (ns : List String) : Prop where
  there : t.HasFileBelow p.base ns
  /-- A slash at the end of a pattern asks for directories. -/
  noSlash : Text.endsWith "/" p.rest = false
  outside : "node_modules" ∉ ns

/-- The pattern asks for the file at these names below the base. -/
structure Asks (p : ImportPattern) (t : FileTree) (ss : List Glob.Step) (ns : List String) : Prop
    extends p.LooksAt t ns where
  matched : Glob.Matches ss ns

/-- The files are those that the pattern asks for, in the order of their paths. -/
structure FindsExactly (p : ImportPattern) (t : FileTree) (ss : List Glob.Step)
    (files : List Path) : Prop where
  inOrder : files.Pairwise fun a b => a.le b = true
  only : ∀ q ∈ files, ∃ ns, p.Asks t ss ns ∧ q.components = p.base.components ++ ns.map .name
  all : ∀ ns, p.Asks t ss ns →
    ∃ q ∈ files, q.components = p.base.components ++ ns.map .name
  /-- What is matched in one way is found once. -/
  once : ∀ ns, p.Asks t ss ns → Glob.ways ss ns = 1 →
    files.countP (·.components == p.base.components ++ ns.map .name) = 1
  strictly : (∀ ns, p.Asks t ss ns → Glob.ways ss ns = 1) →
    files.Pairwise fun a b => a.compare b = .lt

/-- The files are some to look at, and each of these is there as often as the steps match. -/
structure FindsWays (p : ImportPattern) (t : FileTree) (ss : List Glob.Step) (files : List Path) :
    Prop where
  only : ∀ q ∈ files, ∃ ns, p.LooksAt t ns ∧ q.components = p.base.components ++ ns.map .name
  times : ∀ ns, p.LooksAt t ns →
    files.countP (·.components == p.base.components ++ ns.map .name) = Glob.ways ss ns

variable {t : FileTree} {p : ImportPattern} {ss : List Glob.Step} {files : List Path}

theorem FindsWays.perm {others : List Path} (h : p.FindsWays t ss files)
    (hperm : others.Perm files) : p.FindsWays t ss others where
  only q hq := h.only q (hperm.mem_iff.1 hq)
  times ns hns := (hperm.countP_eq _).trans (h.times ns hns)

theorem FindsWays.exactly (h : p.FindsWays t ss files)
    (hinOrder : files.Pairwise fun a b => a.le b = true) : p.FindsExactly t ss files := by
  have hasks : ∀ q ∈ files, ∃ ns, p.Asks t ss ns ∧
      q.components = p.base.components ++ ns.map .name := by
    intro q hq
    obtain ⟨ns, hns, hcomponents⟩ := h.only q hq
    have hpos : 0 < files.countP (·.components == p.base.components ++ ns.map .name) :=
      List.countP_pos_iff.2 ⟨q, hq, beq_iff_eq.2 hcomponents⟩
    rw [h.times ns hns, Glob.ways_pos_iff] at hpos
    exact ⟨ns, ⟨hns, hpos⟩, hcomponents⟩
  constructor
  case inOrder => exact hinOrder
  case only => exact hasks
  case all =>
    intro ns hns
    have hpos := hns.matched.ways_pos
    rw [← h.times ns hns.toLooksAt, List.countP_pos_iff] at hpos
    obtain ⟨q, hq, hcomponents⟩ := hpos
    exact ⟨q, hq, beq_iff_eq.1 hcomponents⟩
  case once =>
    intro ns hns hone
    rw [h.times ns hns.toLooksAt, hone]
  case strictly =>
    intro hone
    have hdistinct : (files.map Path.components).Nodup := by
      refine List.nodup_iff_count_le_one.2 fun cs => ?_
      rw [List.count, List.countP_map]
      show files.countP (fun q => q.components == cs) ≤ 1
      by_cases hcs : cs ∈ files.map Path.components
      · obtain ⟨q, hq, rfl⟩ := List.mem_map.1 hcs
        obtain ⟨ns, hns, hcomponents⟩ := hasks q hq
        have htimes := h.times ns hns.toLooksAt
        rw [hone ns hns, ← hcomponents] at htimes
        exact Nat.le_of_eq htimes
      · rw [List.countP_eq_zero.2 fun q hq heq =>
          hcs (List.mem_map.2 ⟨q, hq, beq_iff_eq.1 heq⟩)]
        exact Nat.zero_le 1
    exact (hinOrder.and (List.pairwise_map.1 hdistinct)).imp fun hab =>
      Path.compare_eq_lt hab.1 hab.2

/-- The steps of a search that does not fail go through pieces of a path. -/
theorem arePieces_of_findFiles (hbase : p.base.isAbsolute = true) (hrest : p.rest ≠ "")
    (h : p.findFiles t = .ok files) (hss : p.RestSteps ss) :
    Glob.ArePieces (Glob.collapse ss) := by
  obtain ⟨cs, hcs⟩ := p.base.isAbsolute_iff.1 hbase
  rw [findFiles_eq] at h
  cases hsteps : Glob.stepsOf p.globText with
  | error e =>
      rw [hsteps] at h
      cases h
  | ok steps =>
      obtain ⟨-, ss', hss', rfl⟩ := stepsOf_absolute hrest hcs hsteps
      obtain rfl : ss' = ss :=
        List.map_inj_right (fun _ _ h => Except.ok.inj h) |>.1 (hss'.symm.trans hss)
      exact fun name hname => Glob.slash_not_mem_of_literal hsteps (List.mem_append_right _ hname)

theorem accepts_eq (hbase : p.base.isAbsolute = true) (hrest : p.rest ≠ "") {q : Path}
    {ns : List String} (hq : q.components = p.base.components ++ ns.map .name) :
    p.accepts t q =
      ((!Text.endsWith "/" p.rest && !decide ("node_modules" ∈ ns)) && t.isFile q) := by
  have hmodules : inNodeModules p.base q = decide ("node_modules" ∈ ns) := by
    rw [inNodeModules_eq hbase hq, Bool.eq_iff_iff, List.contains_iff_mem, decide_eq_true_eq,
      List.mem_map_of_injective fun _ _ h => Component.name.inj h]
  rw [accepts, endsWith_globText hrest, hmodules]

/-- From a directory the files are found by a walk with the steps of the rest. -/
theorem findsWays_of_dir (hsound : t.Sound) (hbase : p.base.isAbsolute = true)
    (hrest : p.rest ≠ "") (hpieces : Glob.ArePieces (Glob.collapse ss))
    (hstrays : Glob.strays ss = false) {es : List (String × FileTree)}
    (hes : t.find p.base = .ok (.dir es)) :
    p.FindsWays t ss
      ((Glob.walkSteps t (Glob.collapse ss) p.base.trodden).filter (p.accepts t)) := by
  obtain ⟨home, hreach, hget⟩ := (FileTree.find_eq_dir_iff p.base.text_trodden_ne_empty).1
    ((FileTree.find_trodden hbase).2 hes)
  have hthere : ∀ ns, t.HasFileBelow p.base ns ↔ (t.textAt? (home ++ ns)).isSome = true := by
    intro ns
    have hbelow : t.textAt? (home ++ ns) = (FileTree.dir es).textAt? ns := by
      rw [FileTree.textAt?, FileTree.get?_append, hget]
      rfl
    rw [hbelow, FileTree.HasFileBelow, hes]
    constructor
    · rintro ⟨node, hnode, hfile⟩
      cases hnode
      exact hfile
    · exact fun hfile => ⟨_, rfl, hfile⟩
  have hstart : t.Trodden p.base.components home [] p.base.trodden :=
    { text_ne := p.base.text_trodden_ne_empty
      reach := (List.append_nil home).symm ▸ hreach
      components := (Path.components_trodden hbase).trans (List.append_nil _).symm }
  obtain ⟨honly, htimes⟩ := Glob.findsWays hsound ss hpieces hstrays [] _ hstart
  constructor
  case only =>
    intro q hq
    obtain ⟨hq, haccepts⟩ := List.mem_filter.1 hq
    have hfile : t.isFile q = true := (Bool.and_eq_true_iff.1 haccepts).2
    obtain ⟨ns, hns⟩ := honly q hq hfile
    rw [accepts_eq hbase hrest hns.components, Bool.and_eq_true, Bool.and_eq_true,
      Bool.not_eq_true', Bool.not_eq_true', decide_eq_false_iff_not] at haccepts
    obtain ⟨⟨hslash, hmodules⟩, -⟩ := haccepts
    refine ⟨ns, ⟨(hthere ns).2 ?_, hslash, hmodules⟩, hns.components⟩
    exact hns.isFile_eq.symm.trans hfile
  case times =>
    intro ns hns
    rw [← htimes ns ((hthere ns).1 hns.there), List.countP_filter]
    refine List.countP_congr fun q _ => ?_
    rw [FileTree.isFileAt, Bool.and_comm, Bool.and_eq_true, Bool.and_eq_true]
    refine and_congr_left fun hq => ?_
    rw [accepts_eq hbase hrest (beq_iff_eq.1 hq), hns.noSlash, decide_eq_false hns.outside]
    exact Iff.rfl

theorem findsWays_of_not_dir (hbase : p.base.isAbsolute = true) (hss : ss ≠ [])
    (hpieces : Glob.ArePieces (Glob.collapse ss))
    (hdir : ∀ es, t.find p.base ≠ .ok (.dir es)) :
    p.FindsWays t ss
      ((Glob.walkSteps t (Glob.collapse ss) p.base.trodden).filter (p.accepts t)) := by
  obtain ⟨s, rest, rfl⟩ := List.exists_cons_of_ne_nil hss
  obtain ⟨first, others, hcollapse⟩ :=
    List.exists_cons_of_ne_nil (Glob.collapse_ne_nil (List.cons_ne_nil s rest))
  rw [hcollapse] at hpieces ⊢
  have hnothing := Glob.walkSteps_of_not_dir p.base.text_trodden_ne_empty
    (fun es hes => hdir es ((FileTree.find_trodden hbase).1 hes))
    (fun name hname => hpieces name (hname ▸ List.mem_cons_self)) others
  rw [hnothing]
  refine ⟨fun q hq => (nomatch hq), fun ns hns => ?_⟩
  -- a file in the place of the directory has no names below it
  obtain ⟨node, hnode, hfile⟩ := hns.there
  have hnil : ns = [] := by
    cases node with
    | dir es => exact absurd hnode (hdir es)
    | file text =>
        cases ns with
        | nil => rfl
        | cons n ns => cases hfile
  have hnone : ¬ 0 < Glob.ways (s :: rest) ns := by
    rw [Glob.ways_pos_iff, hnil]
    exact Glob.not_matches_nil s rest
  rw [Nat.eq_zero_of_not_pos hnone]
  rfl

/-- Without a rest the pattern names its base, which is found if it is a file. -/
theorem findsWays_of_rest_empty (hsound : t.Sound) (hbase : p.base.isAbsolute = true)
    (hrest : p.rest = "") :
    ∃ q, p.findFiles t = .ok (if t.isFile p.base then [q] else []) ∧
      p.FindsWays t [] (if t.isFile p.base then [q] else []) := by
  obtain ⟨q, hq, hfiles⟩ := findFiles_written hsound hbase (p := p) (by rw [hrest]; exact nofun)
  have hwritten : p.written = p.base := by rw [written, hrest]; rfl
  have hnone : Path.stepsOf p.rest.toList = [] := by rw [hrest]; rfl
  rw [hwritten, hnone, List.contains_nil, Bool.not_false, Bool.and_true] at hfiles
  rw [hwritten] at hq
  have hnoSlash : Text.endsWith "/" p.rest = false := by rw [hrest]; rfl
  refine ⟨q, hfiles, fun x hx => ?_, fun ns hns => ?_⟩
  · split at hx
    · next hfile =>
        rw [List.mem_singleton.1 hx, hq]
        exact ⟨[], ⟨FileTree.hasFileBelow_nil.2 hfile, hnoSlash, List.not_mem_nil⟩,
          (List.append_nil _).symm⟩
    · cases hx
  · rw [Glob.ways]
    by_cases hnil : ns = []
    · subst hnil
      rw [if_pos (FileTree.hasFileBelow_nil.1 hns.there), if_pos rfl, List.countP_singleton, hq,
        List.map_nil, List.append_nil, beq_self_eq_true, if_pos rfl]
    · rw [if_neg hnil]
      refine List.countP_eq_zero.2 fun x hx heq => hnil ?_
      split at hx
      · rw [List.mem_singleton.1 hx, hq, beq_iff_eq, List.self_eq_append_right,
          List.map_eq_nil_iff] at heq
        exact heq
      · cases hx

/-- What a search finds below its base, as often as its steps match. -/
theorem exists_findsWays (hsound : t.Sound) (hbase : p.base.isAbsolute = true)
    (hss : p.RestSteps ss) (hstrays : Glob.strays ss = false) :
    ∃ files, p.findFiles t = .ok files ∧ p.FindsWays t ss files ∧
      files.Pairwise fun a b => a.le b = true := by
  by_cases hrest : p.rest = ""
  · have hnil : ss = [] := by
      rw [RestSteps, hrest] at hss
      exact List.map_eq_nil_iff.1 hss.symm
    obtain ⟨q, hfiles, hfinds⟩ := findsWays_of_rest_empty hsound hbase hrest
    refine ⟨_, hfiles, hnil ▸ hfinds, ?_⟩
    split
    · exact List.pairwise_singleton _ q
    · exact .nil
  · obtain ⟨files, hfiles⟩ := hss.exists_findFiles hrest t
    have hne : ss ≠ [] := by
      rintro rfl
      exact Glob.cut_ne_nil hrest (List.map_eq_nil_iff.1 hss)
    have hpieces := arePieces_of_findFiles hbase hrest hfiles hss
    obtain ⟨s, rest, rfl⟩ := List.exists_cons_of_ne_nil hne
    have hsearch := findFiles_from_base hsound hbase hrest hfiles hss
    refine ⟨files, hfiles, ?_, ?_⟩
    · rw [hsearch]
      refine .perm ?_ (sorted_perm _ _)
      by_cases hdir : ∃ es, t.find p.base = .ok (.dir es)
      · obtain ⟨es, hes⟩ := hdir
        exact findsWays_of_dir hsound hbase hrest hpieces hstrays hes
      · exact findsWays_of_not_dir hbase hne hpieces fun es hes => hdir ⟨es, hes⟩
    · rw [hsearch]
      exact sorted_pairwise Path.le_total Path.le_trans _

/-- A search finds the files below its base that its pattern asks for, in order, and each that
is matched in one way only once. -/
theorem findFiles_exact (hsound : t.Sound) (hbase : p.base.isAbsolute = true)
    (hss : p.RestSteps ss) (hstrays : Glob.strays ss = false) :
    ∃ files, p.findFiles t = .ok files ∧ p.FindsExactly t ss files ∧
      (ss.count .deep ≤ 1 → files.Pairwise fun a b => a.compare b = .lt) := by
  obtain ⟨files, hfiles, hfinds, hinOrder⟩ := exists_findsWays hsound hbase hss hstrays
  have hexactly := hfinds.exactly hinOrder
  refine ⟨files, hfiles, hexactly, fun hone => hexactly.strictly fun ns hns => ?_⟩
  have hempty : "" ∉ ns := by
    obtain ⟨node, hnode, hfile⟩ := hns.there
    obtain ⟨text, htext⟩ := Option.isSome_iff_exists.1 hfile
    intro hmem
    exact ((hsound.find hnode).isName (FileTree.textAt?_eq_some.1 htext) _ hmem).ne_empty rfl
  exact Nat.le_antisymm (Glob.ways_le_one hone hempty) hns.matched.ways_pos

/-- A directory with special characters in its name, in one that is called `node_modules`. -/
def bracketed : FileTree :=
  .dir [("node_modules", .dir [("[1]p", .dir [
    ("a.ts", .file ""), (".b.ts", .file ""), ("c.js", .file ""), ("d", .dir [("a.ts", .file "")]),
    ("node_modules", .dir [("a.ts", .file "")])])])]

/-- Names may start with a dot, and only a `node_modules` below the base is left out. -/
theorem findFiles_exact_bracketed :
    let p : ImportPattern := ⟨⟨"/node_modules/[1]p"⟩, "**/*.ts", .here⟩
    ∃ files, p.findFiles bracketed = .ok files ∧
      p.FindsExactly bracketed [.deep, .wild (.many :: ".ts".toList.map .char)] files ∧
      files.Pairwise (fun a b => a.compare b = .lt) ∧
      files = [⟨"/node_modules/[1]p/.b.ts"⟩, ⟨"/node_modules/[1]p/a.ts"⟩,
        ⟨"/node_modules/[1]p/d/a.ts"⟩] := by
  intro p
  have hsound : bracketed.Sound := by decide +kernel
  have hsteps : p.RestSteps [.deep, .wild (.many :: ".ts".toList.map .char)] := by
    rw [RestSteps]
    decide +kernel
  obtain ⟨files, hfiles, hexactly, hstrict⟩ :=
    findFiles_exact hsound (by decide +kernel) hsteps (by decide +kernel)
  refine ⟨files, hfiles, hexactly, hstrict (by decide +kernel), ?_⟩
  have hfound : (p.findFiles bracketed).toOption = some [⟨"/node_modules/[1]p/.b.ts"⟩,
      ⟨"/node_modules/[1]p/a.ts"⟩, ⟨"/node_modules/[1]p/d/a.ts"⟩] := by
    decide +kernel
  rw [hfiles] at hfound
  exact Option.some.inj hfound

/-- With two `**` a file is found twice, and `.*` leads to `.` and `..`: then a file is found
that is not below the base, and one that does not match. -/
theorem findFiles_repeats_and_strays :
    (ImportPattern.mk ⟨"/p/src"⟩ "**/a/**/x.ts" .here).findFiles
        (.dir [("p", .dir [("src", .dir [("a", .dir [("a", .dir [("x.ts", .file "")])])])])]) =
      .ok [⟨"/p/src/a/a/x.ts"⟩, ⟨"/p/src/a/a/x.ts"⟩] ∧
    (ImportPattern.mk ⟨"/p/src"⟩ ".*/x.ts" .here).findFiles
        (.dir [("p", .dir [("src", .dir [("x.ts", .file "")]), ("x.ts", .file "")])]) =
      .ok [⟨"/p/src/../x.ts"⟩, ⟨"/p/src/./x.ts"⟩] := by
  constructor <;> decide +kernel

end ImportPattern

end SiteMacros
