import SiteMacros.Proofs.Patterns
import SiteMacros.Proofs.Plans

/-!
# Resources that a search finds

Of the files that a search for translations finds only the resources count, which is told
by their names. And most searches end with one look through the entries of a directory:
`./locales/*.yaml` goes to the directory by its name and then takes what the last component
matches. Whatever else there is in the directory does not matter, nor does it what is in
the files. So such a search comes to the same in two trees that have the directory, with
resources under the same names (`findResources_congr`).

The searches for the translations of a page are of this kind, wherever the page is
(`findResources_pageSearches`).
-/

namespace SiteMacros

open FileTree (stepOf Shared)
open Session (isResource)

namespace FileTree

variable {t : FileTree} {q : Path} {es : List (String × FileTree)} {home : List String}

/-- An entry of a directory is a file if there is a text at its address. -/
theorem isFile_join (hq : q.text ≠ "") (hreach : t.reach q = .ok home)
    (hes : t.get? home = some (.dir es)) {n : String} (hn : Path.IsName n) :
    t.isFile (q.join n) = (t.textAt? (home ++ [n])).isSome := by
  have hjoin : t.reach (q.join n) = t.walk home [n] := by
    rw [reach_join hn.noSlash (.inl hq), hreach]
    rfl
  have hne := text_join_ne_empty hn.noSlash (.inl hq)
  rw [walk_name hes hn.ne_empty hn.ne_here hn.ne_parent] at hjoin
  rw [isFile, textAt?]
  cases hget : t.get? (home ++ [n]) with
  | none =>
      rw [hget, Option.isSome_none, if_neg Bool.false_ne_true] at hjoin
      split
      · next text hfind =>
          obtain ⟨-, here, hhere, -⟩ := reach_of_find hfind
          rw [hjoin] at hhere
          cases hhere
      · rfl
  | some node =>
      rw [hget, Option.isSome_some, if_pos rfl] at hjoin
      rw [find_of_reach hne hjoin hget]
      cases node <;> rfl

/-- What `.` and `..` lead to from a directory is no file. -/
theorem isFile_join_dots (hq : q.text ≠ "") (hreach : t.reach q = .ok home)
    (hes : t.get? home = some (.dir es)) {piece : String} (h : piece = ".." ∨ piece = ".") :
    t.isFile (q.join piece) = false := by
  have hslash : '/' ∉ piece.toList := by
    rcases h with rfl | rfl <;> decide
  have hne := text_join_ne_empty hslash (.inl hq)
  have hdir : ∃ here fs, t.reach (q.join piece) = .ok here ∧ t.get? here = some (.dir fs) := by
    rw [reach_join hslash (.inl hq), hreach]
    rcases h with rfl | rfl
    · refine ⟨home.dropLast, ?_⟩
      rcases List.eq_nil_or_concat home with rfl | ⟨ns, n, rfl⟩
      · exact ⟨es, walk_up hes, hes⟩
      · rw [List.concat_eq_append] at hes ⊢
        obtain ⟨fs, hfs⟩ := exists_dir_of_get?_append (List.cons_ne_nil n []) hes
        rw [List.dropLast_concat]
        refine ⟨fs, ?_, hfs⟩
        have hup := walk_up hes
        rwa [List.dropLast_concat] at hup
    · exact ⟨home, es, walk_idle hes (.inr rfl), hes⟩
  obtain ⟨here, fs, hhere, hfs⟩ := hdir
  rw [isFile, find_of_reach hne hhere hfs]

/-- A piece that does not count leads nowhere else. -/
theorem Shared.idle {t' : FileTree} {cs : List Component} {fs : List (String × FileTree)}
    (hq : Shared t t' cs home q) (hes : t.get? home = some (.dir es))
    (hfs : t'.get? home = some (.dir fs)) {piece : String} (hslash : '/' ∉ piece.toList)
    (hstep : stepOf piece = none) : Shared t t' cs home (q.join piece) := by
  have hidle := idle_of_stepOf hstep
  refine ⟨text_join_ne_empty hslash (.inl hq.text_ne), ?_, ?_, ?_⟩
  · rw [reach_join hslash (.inl hq.text_ne), hq.left]
    exact walk_idle hes hidle
  · rw [reach_join hslash (.inl hq.text_ne), hq.right]
    exact walk_idle hfs hidle
  · rw [components_join hslash (.inl hq.text_ne), hstep]
    exact hq.below.trans (List.prefix_append _ _)

end FileTree

/-- There is the same at the address in both trees, with resources under the same names if it
is a directory. -/
structure FileTree.ResourcesAlike (t t' : FileTree) (home : List String) : Prop where
  kind : t.kindAt? home = t'.kindAt? home
  texts : ∀ n, isResourceName n = true →
    (t.textAt? (home ++ [n])).isSome = (t'.textAt? (home ++ [n])).isSome

/-- Only a resource has a language. -/
theorem Namespace.languageTag?_eq_none {p : Path} (h : isResource p = false) :
    languageTag? p = none := by
  obtain ⟨hyaml, hyml⟩ := Bool.or_eq_false_iff.1 h
  have hdrop : ∀ tail name : String, Text.endsWith tail name = false →
      Text.dropEnd? tail name = none := by
    intro tail name hends
    rw [Text.dropEnd?, Option.map_eq_none_iff, Option.eq_none_iff_forall_ne_some]
    intro cs hcs
    rw [Text.endsWith, Text.eq_append_of_after? hcs, Bool.eq_false_iff, ne_eq,
      List.isPrefixOf_iff_prefix] at hends
    exact hends (List.prefix_append _ _)
  rw [languageTag?]
  cases hname : p.fileName? with
  | none => rfl
  | some name =>
      rw [hname, Option.getD_some] at hyaml hyml
      rw [Option.bind_eq_bind, Option.bind_some, stem?, hdrop _ _ hyaml, hdrop _ _ hyml]
      rfl

theorem FileTree.ResourcesAlike.symm {t t' : FileTree} {home : List String}
    (h : t.ResourcesAlike t' home) : t'.ResourcesAlike t home :=
  ⟨h.kind.symm, fun n hn => (h.texts n hn).symm⟩

theorem FileTree.SameBelow.resourcesAlike {t t' : FileTree} {home : List String}
    (h : SameBelow t t' home) : t.ResourcesAlike t' home where
  kind := by
    have hhere := h []
    rw [List.append_nil] at hhere
    exact kindAt?_eq_of_bare hhere
  texts n _ := by rw [isSome_textAt?, isSome_textAt?, kindAt?_eq_of_bare (h [n])]

theorem Path.fileName?_join {q : Path} (hq : q.text ≠ "") {n : String} (hn : IsName n) :
    (q.join n).fileName? = some n := by
  rw [fileName?, FileTree.components_join hn.noSlash (.inl hq),
    FileTree.stepOf_of_name hn.ne_empty hn.ne_here hn.ne_parent, Option.toList_some,
    List.getLast?_concat]

theorem sorted_filter_names {α : Type} (p : String × α → Bool) (xs : List (String × α)) :
    sorted (fun a b => decide (a.1 ≤ b.1)) (xs.filter p) =
      (sorted (fun a b => decide (a.1 ≤ b.1)) xs).filter p := by
  refine sorted_filter (fun a b => ?_) (fun a b c hab hbc => ?_) p xs
  · simpa using String.le_total a.1 b.1
  · rw [decide_eq_true_eq] at hab hbc ⊢
    exact String.le_trans hab hbc

/-- Entries with the same names are listed in the same order. -/
theorem map_sorted_eq {α β : Type} {xs ys : List (String × α)}
    (hxs : (xs.map (·.1)).Nodup) (hys : (ys.map (·.1)).Nodup)
    (h : ∀ n, n ∈ xs.map (·.1) ↔ n ∈ ys.map (·.1)) (f : String → β) :
    (sorted (fun a b => decide (a.1 ≤ b.1)) xs).map (fun e => f e.1) =
      (sorted (fun a b => decide (a.1 ≤ b.1)) ys).map fun e => f e.1 := by
  have hnames : ∀ zs : List (String × α),
      (sorted (fun a b => decide (a.1 ≤ b.1)) zs).map (fun e => f e.1) =
        (sorted (fun a b => decide (a.1 ≤ b.1)) (zs.map fun e => (e.1, ()))).map
          fun e => f e.1 := by
    intro zs
    rw [sorted_map (fun _ _ => rfl), List.map_map]
    rfl
  have hunit : ∀ zs : List (String × α), (zs.map fun e => (e.1, ())).map (·.1) = zs.map (·.1) :=
    fun zs => by rw [List.map_map]; rfl
  have hmem : ∀ (zs : List (String × α)) (x : String × Unit),
      x ∈ zs.map (fun e => (e.1, ())) ↔ x.1 ∈ zs.map (·.1) := by
    intro zs x
    simp [Prod.ext_iff]
  rw [hnames xs, hnames ys, sorted_eq_of_mem_iff (by rwa [hunit]) (by rwa [hunit]) fun x => ?_]
  rw [hmem, hmem, h]

/-! ## One look through a directory -/

namespace Glob

/-- Do the steps come down to one look through the entries of the directory? -/
def looksThrough : List Step → Bool
  | [.wild _] => true
  | .literal name :: rest => decide (stepOf name = none) && looksThrough rest
  | _ => false

section

variable {t t' : FileTree} {q : Path} {es fs : List (String × FileTree)} {home : List String}

/-- The names of the entries in order, as paths. -/
theorem walkSteps_entries {ts : List Token} (h : t.find q = .ok (.dir es)) :
    walkSteps t [.wild ts] q = (dotSteps ts).map q.join ++
      (sorted (fun a b => decide (a.1 ≤ b.1)) (es.filter fun e => matchTokens ts e.1.toList)).map
        fun e => q.join e.1 := by
  have hfound : ∀ xs : List (String × FileTree), entriesFound (fun name _ =>
      if matchTokens ts name.toList then some (walkSteps t [] (q.join name)) else none) xs =
      (xs.filter fun e => matchTokens ts e.1.toList).map fun e => (e.1, [q.join e.1]) := by
    intro xs
    induction xs with
    | nil => rfl
    | cons e xs ih =>
        rw [entriesFound] at ih ⊢
        rw [List.filterMap_cons, List.filter_cons, ih]
        cases matchTokens ts e.1.toList <;> rfl
  rw [walkSteps_wild h, hfound, inOrder, sorted_map (fun _ _ => rfl), List.flatMap_map]
  exact congrArg₂ _ List.map_eq_flatMap.symm List.map_eq_flatMap.symm

/-- What counts among the entries that are found, if `.` and `..` do not. -/
theorem filter_walkSteps_entries {ts : List Token} (h : t.find q = .ok (.dir es))
    {f : Path → Bool} (hdots : ∀ piece, piece = ".." ∨ piece = "." → f (q.join piece) = false) :
    (walkSteps t [.wild ts] q).filter f =
      (sorted (fun a b => decide (a.1 ≤ b.1))
        (es.filter fun e => f (q.join e.1) && matchTokens ts e.1.toList)).map
          fun e => q.join e.1 := by
  have hnone : ((dotSteps ts).map q.join).filter f = [] := by
    rw [List.filter_map, List.map_eq_nil_iff, List.filter_eq_nil_iff]
    intro piece hpiece
    rw [Function.comp_apply, hdots piece (dotSteps_subset hpiece)]
    exact Bool.false_ne_true
  rw [walkSteps_entries h, List.filter_append, hnone, List.nil_append, List.filter_map,
    ← sorted_filter_names, List.filter_filter]
  rfl

/-- The names of the resources that count in one tree count in the other. -/
theorem mem_resources (hsound : t.Sound) (hq : q.text ≠ "")
    (hreach : t.reach q = .ok home) (hreach' : t'.reach q = .ok home)
    (hes : t.get? home = some (.dir es)) (hfs : t'.get? home = some (.dir fs))
    (halike : t.ResourcesAlike t' home) {ts : List Token} {wanted : Path → Bool} {n : String}
    (hn : n ∈ (es.filter fun e => (isResource (q.join e.1) &&
      (wanted (q.join e.1) && t.isFile (q.join e.1))) && matchTokens ts e.1.toList).map (·.1)) :
    n ∈ (fs.filter fun e => (isResource (q.join e.1) &&
      (wanted (q.join e.1) && t'.isFile (q.join e.1))) && matchTokens ts e.1.toList).map (·.1) := by
  obtain ⟨e, he, rfl⟩ := List.mem_map.1 hn
  obtain ⟨he, hcounts⟩ := List.mem_filter.1 he
  simp only [Bool.and_eq_true] at hcounts
  obtain ⟨⟨hresource, hwanted, hfile⟩, hmatch⟩ := hcounts
  have hname := hsound.names _ es hes e he
  rw [FileTree.isFile_join hq hreach hes hname] at hfile
  have hnamed : isResourceName e.1 = true := by
    rwa [isResource, Path.fileName?_join hq hname] at hresource
  rw [halike.texts e.1 hnamed] at hfile
  obtain ⟨text, htext⟩ := Option.isSome_iff_exists.1 hfile
  have hentry : (e.1, FileTree.file text) ∈ fs := by
    rw [FileTree.textAt?_eq_some, FileTree.get?_append, hfs] at htext
    refine FileTree.mem_of_lookup ?_
    rw [Option.bind_some, FileTree.get?, FileTree.child?_dir] at htext
    cases hlookup : fs.lookup e.1 with
    | none =>
        rw [hlookup] at htext
        cases htext
    | some c =>
        rw [hlookup] at htext
        exact htext
  refine List.mem_map.2 ⟨_, List.mem_filter.2 ⟨hentry, ?_⟩, rfl⟩
  simp only [Bool.and_eq_true]
  refine ⟨⟨hresource, hwanted, ?_⟩, hmatch⟩
  rw [FileTree.isFile_join hq hreach' hfs hname, htext]
  rfl

/-- Nothing is found where there is no directory. -/
theorem walkSteps_of_file (hq : q.text ≠ "") (hreach : t.reach q = .ok home) {text : String}
    (hfile : t.get? home = some (.file text)) {steps : List Step}
    (hpieces : ArePieces steps) (hlooks : looksThrough steps = true) :
    walkSteps t steps q = [] := by
  rcases steps with _ | ⟨name | ts | _, rest⟩
  · cases hlooks
  · have hslash := hpieces name List.mem_cons_self
    rw [walkSteps_literal (.inl hq), if_neg]
    rw [FileTree.exists?_iff (FileTree.text_join_ne_empty hslash (.inl hq)),
      FileTree.reach_join hslash (.inl hq), hreach]
    rintro ⟨here, hhere⟩
    refine FileTree.walk_of_not_dir (fun es hes => ?_) here hhere
    rw [hfile] at hes
    cases hes
  · rw [walkSteps, FileTree.find_of_reach hq hreach hfile]
  · cases hlooks

/-- One look through a directory comes to the same resources. -/
theorem filter_walkSteps_dir (hsound : t.Sound) (hsound' : t'.Sound)
    (halike : t.ResourcesAlike t' home) (wanted : Path → Bool) {cs : List Component}
    {steps : List Step} (hpieces : ArePieces steps) (hq : Shared t t' cs home q)
    (hes : t.get? home = some (.dir es)) (hfs : t'.get? home = some (.dir fs))
    (hlooks : looksThrough steps = true) :
    (walkSteps t' steps q).filter (fun x => isResource x && (wanted x && t'.isFile x)) =
      (walkSteps t steps q).filter (fun x => isResource x && (wanted x && t.isFile x)) := by
  induction steps generalizing q with
  | nil => cases hlooks
  | cons s rest ih =>
      cases s with
      | literal name =>
          rw [looksThrough, Bool.and_eq_true, decide_eq_true_eq] at hlooks
          have hjoin := hq.idle hes hfs (hpieces name List.mem_cons_self) hlooks.1
          rw [walkSteps_literal (.inl hq.text_ne), walkSteps_literal (.inl hq.text_ne),
            if_pos ((FileTree.exists?_iff hjoin.text_ne).2 ⟨home, hjoin.left⟩),
            if_pos ((FileTree.exists?_iff hjoin.text_ne).2 ⟨home, hjoin.right⟩)]
          exact ih hpieces.tail hjoin hlooks.2
      | wild ts =>
          cases rest with
          | cons s' rest => cases hlooks
          | nil =>
              have hfind := FileTree.find_of_reach hq.text_ne hq.left hes
              have hfind' := FileTree.find_of_reach hq.text_ne hq.right hfs
              rw [filter_walkSteps_entries hfind fun piece hpiece => ?_,
                filter_walkSteps_entries hfind' fun piece hpiece => ?_]
              · refine map_sorted_eq ((hsound'.distinct _ fs hfs).sublist ?_)
                  ((hsound.distinct _ es hes).sublist ?_) (fun n => ⟨?_, ?_⟩) q.join
                · exact List.filter_sublist.map _
                · exact List.filter_sublist.map _
                · exact mem_resources hsound' hq.text_ne hq.right hq.left hfs hes halike.symm
                · exact mem_resources hsound hq.text_ne hq.left hq.right hes hfs halike
              · rw [FileTree.isFile_join_dots hq.text_ne hq.right hfs hpiece, Bool.and_false,
                  Bool.and_false]
              · rw [FileTree.isFile_join_dots hq.text_ne hq.left hes hpiece, Bool.and_false,
                  Bool.and_false]
      | deep => cases hlooks

theorem filter_walkSteps_eq (hsound : t.Sound) (hsound' : t'.Sound)
    (halike : t.ResourcesAlike t' home) (wanted : Path → Bool) {cs : List Component}
    {steps : List Step} (hpieces : ArePieces steps) (hq : Shared t t' cs home q)
    (hlooks : looksThrough steps = true) :
    (walkSteps t' steps q).filter (fun x => isResource x && (wanted x && t'.isFile x)) =
      (walkSteps t steps q).filter (fun x => isResource x && (wanted x && t.isFile x)) := by
  obtain ⟨node, hnode⟩ := FileTree.exists_of_reach hq.left
  obtain ⟨node', hnode'⟩ := FileTree.exists_of_reach hq.right
  have hkind := halike.kind
  rw [FileTree.kindAt?, FileTree.kindAt?, hnode, hnode'] at hkind
  rcases node with text | es <;> rcases node' with text' | fs <;> try cases hkind
  · rw [walkSteps_of_file hq.text_ne hq.left hnode hpieces hlooks,
      walkSteps_of_file hq.text_ne hq.right hnode' hpieces hlooks]
    rfl
  · exact filter_walkSteps_dir hsound hsound' halike wanted hpieces hq hnode hnode' hlooks

end

end Glob

/-! ## Searches for resources -/

theorem Glob.steps_yaml : (cut "*.yaml").map (fun c => (compile c).map Step.ofTokens) =
    [Step.wild (.many :: ".yaml".toList.map .char)].map .ok := by
  decide +kernel

theorem Glob.steps_yml : (cut "*.yml").map (fun c => (compile c).map Step.ofTokens) =
    [Step.wild (.many :: ".yml".toList.map .char)].map .ok := by
  decide +kernel

namespace ImportPattern

/-- A pattern that starts at the directory stays there. -/
theorem resolve_here (dir : Path) (rest : List Char) :
    resolve (String.ofList ('.' :: '/' :: rest)) dir dir =
      .ok ⟨dir, String.ofList (Text.dropEndWhile (· == '/') rest), .here⟩ := by
  rw [resolve, String.toList_ofList]
  rfl

/-- The resources among the files that a pattern matches. -/
def findResources (p : ImportPattern) (t : FileTree) : Except MacroError (List Path) :=
  (p.findFiles t).map fun files => files.filter isResource

theorem findResources_eq (p : ImportPattern) (t : FileTree) :
    p.findResources t = match Glob.stepsOf p.globText with
      | .error e => .error (.badPattern p.rest e)
      | .ok steps =>
          let start : Path := if Text.startsWith "/" p.globText then ⟨"/"⟩ else ⟨""⟩
          .ok (sortPaths ((Glob.walkSteps t steps start).filter
            fun q => isResource q && p.accepts t q)) := by
  rw [findResources, findFiles_eq]
  cases Glob.stepsOf p.globText with
  | error e => rfl
  | ok steps =>
      dsimp only [Except.map]
      rw [sortPaths, ← sorted_filter Path.le_total Path.le_trans, List.filter_filter]
      rfl

/-- Does a search for the pattern end with one look through the entries of the directory? -/
def looksIn (p : ImportPattern) (dir : Path) : Bool :=
  p.leadsTo Glob.looksThrough dir

variable {t t' : FileTree} {home : List String}

/-- Such a search finds the same resources in two trees if they have the directory, with
resources under the same names. -/
theorem findResources_congr (hsound : t.Sound) (hsound' : t'.Sound) {p : ImportPattern} {dir : Path}
    (hlooks : p.looksIn dir = true) (hdir : Shared t t' dir.components home dir)
    (halike : t.ResourcesAlike t' home) : p.findResources t' = p.findResources t := by
  rw [looksIn, leadsTo] at hlooks
  rw [findResources_eq, findResources_eq]
  cases hsteps : Glob.stepsOf p.globText with
  | error e => rfl
  | ok steps =>
      rw [hsteps] at hlooks
      have hpieces : Glob.ArePieces steps := fun name hname =>
        Glob.slash_not_mem_of_literal hsteps hname
      have hrelated := @related_walkSteps t t' home
        (fun xs xs' => xs'.filter (fun q => isResource q && p.accepts t' q) =
          xs.filter fun q => isResource q && p.accepts t q)
        Glob.looksThrough rfl hsound hsound' dir hdir (fun steps q hpieces hq hlooks => ?_)
        steps hpieces _ hlooks
      · dsimp only at hrelated ⊢
        rw [hrelated]
      · rw [List.append_nil] at hq
        exact Glob.filter_walkSteps_eq hsound hsound' halike _ hpieces hq hlooks

end ImportPattern

namespace Translations

variable {t t' : FileTree}

theorem resourcesOf_filter (languages : Option (List String)) (specifierOf : Path → String)
    (files : List Path) :
    resourcesOf languages specifierOf (files.filter isResource) =
      resourcesOf languages specifierOf files := by
  rw [resourcesOf, resourcesOf, List.filterMap_filter]
  refine List.filterMap_congr fun path _ => ?_
  cases hresource : isResource path with
  | true => rfl
  | false =>
      rw [Namespace.languageTag?_eq_none hresource]
      rfl

theorem map_resourcesOf (languages : Option (List String)) (specifierOf : Path → String)
    (p : ImportPattern) (t : FileTree) :
    (p.findFiles t).map (resourcesOf languages specifierOf) =
      (p.findResources t).map (resourcesOf languages specifierOf) := by
  rw [ImportPattern.findResources]
  cases p.findFiles t with
  | error e => rfl
  | ok files => exact congrArg Except.ok (resourcesOf_filter languages specifierOf files).symm

theorem find_eq_of_findResources {req : Request} {pattern : ImportPattern}
    (hpattern : ImportPattern.resolve req.pattern req.directory req.root = .ok pattern)
    (h : pattern.findResources t' = pattern.findResources t) : find t' req = find t req := by
  have hfind : ∀ u : FileTree, find u req =
      ((pattern.findFiles u).map (resourcesOf req.languages fun path =>
        if req.directory.same req.importer then
          (pattern.specifierOf? path).getD (relativeSpecifier req.importer path)
        else relativeSpecifier req.importer path)).map
          (⟨Namespace.ofDirectory req.directory req.root, ·⟩) := by
    intro u
    rw [find.eq_def, hpattern]
    dsimp only [bind, Except.bind]
    cases pattern.findFiles u <;> rfl
  rw [hfind, hfind, map_resourcesOf, map_resourcesOf, h]

theorem ofPage_eq {dir : Path} {p q : ImportPattern}
    (hp : ImportPattern.resolve "./*.yaml" dir dir = .ok p)
    (hq : ImportPattern.resolve "./*.yml" dir dir = .ok q) (id : String)
    (languages : Option (List String)) (specifierOf : Path → String) :
    ofPage t id dir languages specifierOf =
      (p.findFiles t).map (resourcesOf languages specifierOf) >>= fun xs =>
        (q.findFiles t).map (resourcesOf languages specifierOf) >>= fun ys =>
          .ok ⟨id, sorted (fun a b => a.path.le b.path) (xs ++ ys)⟩ := by
  rw [ofPage]
  simp only [List.mapM_cons, List.mapM_nil, hp, hq]
  dsimp only [bind, Except.bind]
  rcases p.findFiles t with e | files
  · rfl
  · rcases q.findFiles t with e | others
    · rfl
    · show Except.ok _ = Except.ok _
      simp

/-- The searches for the translations of a page that has this directory for them. -/
def pageSearches (dir : Path) : List ImportPattern :=
  [⟨dir, "*.yaml", .here⟩, ⟨dir, "*.yml", .here⟩]

/-- The translations of a page are the resources that its searches find. -/
theorem ofPage_eq_of_findResources {dir : Path}
    (h : ∀ p ∈ pageSearches dir, p.findResources t' = p.findResources t) (id : String)
    (languages : Option (List String)) (specifierOf : Path → String) :
    ofPage t' id dir languages specifierOf = ofPage t id dir languages specifierOf := by
  have hyaml : ImportPattern.resolve "./*.yaml" dir dir = .ok ⟨dir, "*.yaml", .here⟩ :=
    ImportPattern.resolve_here dir ['*', '.', 'y', 'a', 'm', 'l']
  have hyml : ImportPattern.resolve "./*.yml" dir dir = .ok ⟨dir, "*.yml", .here⟩ :=
    ImportPattern.resolve_here dir ['*', '.', 'y', 'm', 'l']
  obtain ⟨hyamlSame, h⟩ := List.forall_mem_cons.1 h
  obtain ⟨hymlSame, -⟩ := List.forall_mem_cons.1 h
  rw [ofPage_eq hyaml hyml, ofPage_eq hyaml hyml, map_resourcesOf, map_resourcesOf,
    map_resourcesOf, map_resourcesOf, hyamlSame, hymlSame]

/-- They look through the directory. -/
theorem looksIn_pageSearches {dir : Path} (hdir : dir.text ≠ "")
    (hfront : ∀ cs, dir.components ≠ .here :: cs) :
    ∀ p ∈ pageSearches dir, p.looksIn dir = true := by
  have hskips : ImportPattern.SkipsIdle Glob.looksThrough := by
    intro name rest hidle
    rw [Glob.looksThrough, decide_eq_true hidle, Bool.true_and]
  refine List.forall_mem_cons.2 ⟨?_, List.forall_mem_singleton.2 ?_⟩
  · exact ImportPattern.leadsTo_base hskips (by decide : "*.yaml" ≠ "")
      (ImportPattern.restHas_of_steps Glob.steps_yaml rfl) hdir hfront
  · exact ImportPattern.leadsTo_base hskips (by decide : "*.yml" ≠ "")
      (ImportPattern.restHas_of_steps Glob.steps_yml rfl) hdir hfront

/-- They find the same resources if there are the same in the directory. -/
theorem findResources_pageSearches {home : List String} (hsound : t.Sound) (hsound' : t'.Sound)
    {dir : Path} (hdir : Shared t t' dir.components home dir) (halike : t.ResourcesAlike t' home) :
    ∀ p ∈ pageSearches dir, p.findResources t' = p.findResources t := by
  intro p hp
  by_cases hfront : ∃ cs, dir.components = .here :: cs
  · obtain ⟨cs, hcs⟩ := hfront
    have hsame : p.findFiles t' = p.findFiles t := by
      rcases List.mem_cons.1 hp with rfl | hp
      · exact ImportPattern.findFiles_of_here (by decide : "*.yaml" ≠ "") hdir.text_ne hcs
      · rw [List.mem_singleton.1 hp]
        exact ImportPattern.findFiles_of_here (by decide : "*.yml" ≠ "") hdir.text_ne hcs
    rw [ImportPattern.findResources, ImportPattern.findResources, hsame]
  · rw [not_exists] at hfront
    exact ImportPattern.findResources_congr hsound hsound'
      (looksIn_pageSearches hdir.text_ne hfront p hp) hdir halike

end Translations

end SiteMacros
