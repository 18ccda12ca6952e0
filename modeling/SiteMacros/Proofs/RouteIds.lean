import SiteMacros.Proofs.Owners
import SiteMacros.Proofs.Rearrangements
import SiteMacros.Proofs.RouteTrees
import SiteMacros.Proofs.Specifiers

/-!
# The ids of routes

The id of a route is the namespace of its page's directory, and the route of an index view
adds `|index` to it. A namespace is a list of names written down with bars between them. So if
no name has a bar itself, the names that lead to a page can be read off its id again; and
`index` is no name of a page, as it holds no index token. Hence all routes of a tree differ in
their ids (`ids_distinct`).

This takes all namespaces to start from the same place. A directory in the project is named
from the project's root, and one outside of it by its whole path. If the root of the project
is itself one of the pages, the tree has both, and a page outside can have the id of one
inside (`ids_repeated_around_project`).
-/

namespace SiteMacros

/-! ## Namespaces by their parts -/

namespace Namespace

/-- What a namespace is written with: the names and `..` on the way from the root, or all of
the path if it does not lead through the root. -/
def parts (dir root : Path) : List String :=
  (if dir.startsWith root then dir.components.drop root.components.length
    else dir.components).filterMap Path.spelled

theorem toSlashed_relative (dir root : Path) :
    ((dir.relativeTo? root).getD dir).toSlashed = "/".intercalate (parts dir root) := by
  rw [parts, ← Path.slashed_eq]
  by_cases hbelow : dir.startsWith root = true
  · obtain ⟨cs, hcs⟩ := List.isPrefixOf_iff_prefix.1 hbelow
    rw [if_pos hbelow, ← hcs, List.drop_left]
    by_cases hroot : root.components = []
    · rw [hroot, List.nil_append] at hcs
      rw [Path.relativeTo?, if_pos hbelow, hroot, hcs]
      dsimp only [List.length_nil]
      rw [Option.getD_some, Path.toSlashed,
        Path.components_ofPieces (Path.dropEndWhile_isPrefix Path.idle dir.pieces),
        Path.filterMap_dropEndWhile_idle]
      rfl
    · obtain ⟨rel, hrel, habs, hsteps, -⟩ := Path.relativeTo?_below hroot hcs.symm
      rw [hrel, Option.getD_some, Path.toSlashed, Path.slashed_components habs, hsteps]
  · rw [if_neg hbelow, Path.relativeTo?, if_neg hbelow]
    rfl

theorem ofDirectory_eq (dir root : Path) :
    ofDirectory dir root = "|".intercalate (parts dir root) := by
  have hnames : ∀ s ∈ parts dir root, '/' ∉ s.toList := by
    intro s hs
    obtain ⟨c, hc, hspelled⟩ := List.mem_filterMap.1 hs
    have hmem : c ∈ dir.components := by
      split at hc
      · exact List.mem_of_mem_drop hc
      · exact hc
    exact (Path.stepOf_spelled hspelled fun n hn =>
      Path.isName_of_mem_components (hn ▸ hmem)).2
  rw [ofDirectory, toSlashed_relative]
  by_cases hnone : parts dir root = []
  · rw [hnone]
    decide
  · rw [Text.split, Text.pieces_intercalate_toList rfl hnone hnames, List.map_map]
    congr 1
    exact (List.map_congr_left fun n _ => String.ofList_toList).trans (List.map_id _)

/-- Names below a directory are added to its parts, unless they lead through the root. -/
theorem parts_below {dir root : Path} {names : List String}
    (hnames : ∀ n ∈ names, Path.IsName n)
    (hroot : (dir.below names).startsWith root = true → dir.startsWith root = true) :
    parts (dir.below names) root = parts dir root ++ names := by
  have hspelled : (names.map Component.name).filterMap Path.spelled = names := by
    rw [List.filterMap_map]
    exact List.filterMap_some
  rw [parts, parts, Path.components_below hnames]
  by_cases hdir : dir.startsWith root = true
  · have hprefix := List.isPrefixOf_iff_prefix.1 hdir
    have hbelow : (dir.below names).startsWith root = true := by
      rw [Path.startsWith, Path.components_below hnames, List.isPrefixOf_iff_prefix]
      exact hprefix.trans (List.prefix_append _ _)
    rw [if_pos hdir, if_pos hbelow, List.drop_append_of_le_length hprefix.length_le,
      List.filterMap_append, hspelled]
  · rw [if_neg hdir, if_neg fun hbelow => hdir (hroot hbelow), List.filterMap_append, hspelled]

/-! ## Ids -/

/-- The id of the page that these names lead to, or of the route of its index view. -/
def idAt (base names : List String) : Bool → String
  | false => "|".intercalate (base ++ names)
  | true => "|".intercalate (base ++ names) ++ "|index"

/-- What is between the bars of the id of a page. -/
def cells (base names : List String) : List (List Char) :=
  Text.pieces '|' (idAt base names false).toList

variable {base ms ns : List String}

theorem cells_of_ne_nil (hne : ns ≠ []) (hns : ∀ n ∈ ns, IsPart n) :
    cells base ns = (if base = [] then [] else cells base []) ++ ns.map String.toList := by
  split
  · next hbase =>
      rw [cells, idAt, hbase]
      exact pieces_bars hne hns
  · next hbase =>
      rw [cells, idAt, String.intercalate_append_of_ne_nil hbase hne, String.toList_append,
        String.toList_append, List.append_assoc, show "|".toList = ['|'] from rfl,
        List.singleton_append, Text.pieces_append_sep, pieces_bars hne hns, cells, idAt,
        List.append_nil]

/-- The cells of a page below the first are more or others than those of the first. -/
theorem cells_nil_ne (hne : ns ≠ []) (hns : ∀ n ∈ ns, IsPart n) :
    cells base [] ≠ cells base ns := by
  intro h
  rw [cells_of_ne_nil hne hns] at h
  split at h
  · next hbase =>
      rw [hbase] at h
      obtain ⟨n, rest, rfl⟩ := List.exists_cons_of_ne_nil hne
      have hn : [] = n.toList := (List.cons.inj h).1
      exact (hns n List.mem_cons_self).ne_empty (String.toList_eq_nil_iff.1 hn.symm)
  · have hlength := congrArg List.length h
    rw [List.length_append, List.length_map] at hlength
    exact hne (List.length_eq_zero_iff.1 (by omega))

theorem cells_inj (hms : ∀ m ∈ ms, IsPart m) (hns : ∀ n ∈ ns, IsPart n)
    (h : cells base ms = cells base ns) : ms = ns := by
  by_cases hm : ms = []
  · by_cases hn : ns = []
    · rw [hm, hn]
    · exact absurd (hm ▸ h) (cells_nil_ne hn hns)
  · by_cases hn : ns = []
    · exact absurd (hn ▸ h).symm (cells_nil_ne hm hms)
    · rw [cells_of_ne_nil hm hms, cells_of_ne_nil hn hns, List.append_cancel_left_eq] at h
      exact List.map_inj_right (fun _ _ => String.toList_inj.1) |>.1 h

/-- The last cell of a page is the name of its directory, and that is not `index`. -/
theorem cells_ne_concat_index (hms : ∀ m ∈ ms, IsPart m) (hns : ∀ n ∈ ns, IsPart n)
    (hindex : "index" ∉ ns) : cells base ns ≠ cells base ms ++ ["index".toList] := by
  intro h
  by_cases hn : ns = []
  · -- the first page has not more cells than another
    have hle : (cells base []).length ≤ (cells base ms).length := by
      by_cases hm : ms = []
      · rw [hm]
      · rw [cells_of_ne_nil hm hms, List.length_append, List.length_map]
        split
        · next hbase =>
            rw [hbase]
            exact Nat.le_add_left_of_le (List.length_pos_iff.2 hm)
        · exact Nat.le_add_right _ _
    have hlength := congrArg List.length h
    rw [hn, List.length_append, List.length_singleton] at hlength
    omega
  · rw [cells_of_ne_nil hn hns] at h
    have hlast := congrArg List.getLast? h
    rw [List.getLast?_concat, List.getLast?_append_of_ne_nil _ (by simpa using hn),
      List.getLast?_map] at hlast
    obtain ⟨n, hlast, heq⟩ := Option.map_eq_some_iff.1 hlast
    rw [String.toList_inj] at heq
    exact hindex (heq ▸ List.mem_of_getLast? hlast)

theorem pieces_idAt_index (base ns : List String) :
    Text.pieces '|' (idAt base ns true).toList = cells base ns ++ ["index".toList] := by
  rw [idAt, String.toList_append, show "|index".toList = '|' :: "index".toList from rfl,
    Text.pieces_append_sep]
  rfl

/-- The names can be read off the id again. -/
theorem idAt_inj (hms : ∀ m ∈ ms, IsPart m) (hns : ∀ n ∈ ns, IsPart n) (hm : "index" ∉ ms)
    (hn : "index" ∉ ns) {b c : Bool} (h : idAt base ms b = idAt base ns c) :
    (ms, b) = (ns, c) := by
  have hpieces : Text.pieces '|' (idAt base ms b).toList =
      Text.pieces '|' (idAt base ns c).toList :=
    congrArg (fun id : String => Text.pieces '|' id.toList) h
  cases b with
  | false =>
      cases c with
      | false => rw [cells_inj hms hns hpieces]
      | true =>
          rw [pieces_idAt_index] at hpieces
          exact absurd hpieces (cells_ne_concat_index hns hms hm)
  | true =>
      rw [pieces_idAt_index] at hpieces
      cases c with
      | false => exact absurd hpieces.symm (cells_ne_concat_index hms hns hn)
      | true =>
          rw [pieces_idAt_index, List.append_cancel_right_eq] at hpieces
          rw [cells_inj hms hns hpieces]

end Namespace

/-! ## Routes -/

namespace Route

theorem id_ofChild (p : Page) : (ofChild p).id = p.id := by
  rw [ofChild, ofPage_eq]
  rcases p.kind with _ | (n | n | _) <;> rfl

theorem id_indexRoute {p : Page} {r : Route} (h : p.indexRoute? = some r) :
    r.id = p.id ++ "|index" := by
  obtain ⟨index, hindex⟩ := isIndexOf_of_indexRoute h
  exact hindex.id

/-- The names of the page that each of two routes comes from, and whether it is the route of
the page's index view. -/
def rows (q : List String × Page) : List (List String × Bool) :=
  (q.1, false) :: q.2.indexRoute?.toList.map fun _ => (q.1, true)

theorem fst_of_mem_rows {q : List String × Page} {row : List String × Bool} (h : row ∈ rows q) :
    row.1 = q.1 := by
  rw [rows, List.mem_cons, List.mem_map] at h
  rcases h with rfl | ⟨_, -, rfl⟩ <;> rfl

theorem rows_nodup {placed : List (List String × Page)} (h : (placed.map Prod.fst).Nodup) :
    (placed.flatMap rows).Nodup := by
  rw [List.nodup_flatMap]
  refine ⟨fun q _ => ?_, ?_⟩
  · rw [rows]
    cases q.2.indexRoute? with
    | none => exact List.nodup_singleton _
    | some r => simp
  · refine (List.pairwise_map.1 h).imp fun {q q'} hne row hrow hrow' => hne ?_
    rw [← fst_of_mem_rows hrow, ← fst_of_mem_rows hrow']

/-- The ids of all routes of a tree are those of the pages, and those of index views. -/
theorem ids_perm {root : Page} (h : root.Formed) (hkind : root.kind = none) {base : List String}
    (hids : ∀ q ∈ root.placed, q.2.id = Namespace.idAt base q.1 false) :
    ((ofPage root).flatten.map (·.id)).Perm
      ((root.placed.flatMap rows).map fun row => Namespace.idAt base row.1 row.2) := by
  rw [← ofChild_of_root hkind]
  refine ((flatten_ofChild_perm h).map _).trans (.of_eq ?_)
  rw [List.map_flatMap, List.map_flatMap]
  refine List.flatMap_congr fun q hq => ?_
  rw [rows, List.map_cons, List.map_cons, id_ofChild, hids q hq]
  refine congrArg _ ?_
  cases hindex : q.2.indexRoute? with
  | none => rfl
  | some r =>
      show [r.id] = [Namespace.idAt base q.1 true]
      rw [id_indexRoute hindex, hids q hq]
      rfl

end Route

namespace PageTree

theorem reaches_front {es last : List (String × FileTree)} {ks ns : List String}
    (h : Reaches es (ks ++ ns) last) : ∃ mid, Reaches es ks mid := by
  induction ks generalizing es with
  | nil => exact ⟨es, .here es⟩
  | cons k ks ih =>
      cases h with
      | into entry page rest =>
          obtain ⟨mid, hmid⟩ := ih rest
          exact ⟨mid, .into entry page hmid⟩

theorem reaches_parses {es last : List (String × FileTree)} {names : List String}
    (h : Reaches es names last) : ∀ n ∈ names, (PageName.parse? n).isSome = true := by
  induction h with
  | here es => exact fun n hn => absurd hn List.not_mem_nil
  | into entry page rest ih => exact List.forall_mem_cons.2 ⟨page, ih⟩

/-- No name on the way to a page has a bar. -/
def BarFree (root : Page) : Prop :=
  ∀ q ∈ root.placed, ∀ n ∈ q.1, '|' ∉ n.toList

/-- The project's root is none of the pages below the first. -/
def NotAround (req : PageRequest) (root : Page) : Prop :=
  ∀ q ∈ root.placed, q.1 ≠ [] → q.2.dir.components ≠ req.root.components

instance (root : Page) : Decidable (BarFree root) :=
  inferInstanceAs (Decidable (∀ q ∈ root.placed, ∀ n ∈ q.1, '|' ∉ n.toList))

instance (req : PageRequest) (root : Page) : Decidable (NotAround req root) :=
  inferInstanceAs (Decidable
    (∀ q ∈ root.placed, q.1 ≠ [] → q.2.dir.components ≠ req.root.components))

/-- The ids of the pages start from one place, if the project's root is not among them. -/
theorem id_of_placed {tree : FileTree} (hsound : tree.Sound) {req : PageRequest}
    {pages : PageTree} (h : (load tree req).result = .ok pages)
    (houtside : NotAround req pages.root) :
    ∀ q ∈ pages.root.placed,
      q.2.id = Namespace.idAt (Namespace.parts pages.pattern.target req.root) q.1 false := by
  obtain ⟨entries, -, hmirrors⟩ := mirrors_of_load hsound h
  intro q hq
  have hpage := isPage_of_placed hsound h q hq
  rw [hpage.id, hpage.dir, Namespace.ofDirectory_eq, Namespace.parts_below hpage.isName,
    Namespace.idAt]
  intro hbelow
  by_contra hroot
  rw [Path.startsWith, List.isPrefixOf_iff_prefix] at hbelow hroot
  rw [Path.components_below hpage.isName] at hbelow
  -- the root is below the first page, and one of the pages on the way is there
  rcases List.prefix_or_prefix_of_prefix hbelow (List.prefix_append _ _) with habove | habove
  · exact hroot habove
  · obtain ⟨cs, hcs⟩ := habove
    rw [← hcs, List.prefix_append_right_inj] at hbelow
    obtain ⟨ks, hks, rfl⟩ := List.prefix_map_iff.1 hbelow
    have hne : ks ≠ [] := by
      rintro rfl
      rw [List.map_nil, List.append_nil] at hcs
      exact hroot (hcs ▸ List.prefix_rfl)
    obtain ⟨ns, hns⟩ := hks
    obtain ⟨last, hlast⟩ := (hmirrors.reached q.1).1 (List.mem_map_of_mem hq)
    obtain ⟨r, hr, rfl⟩ := List.mem_map.1 ((hmirrors.reached ks).2 (reaches_front (hns ▸ hlast)))
    have hrpage := isPage_of_placed hsound h r hr
    refine houtside r hr hne ?_
    rw [hrpage.dir, Path.components_below hrpage.isName, hcs]

/-- A route belongs to the page with these names: it is the page's own, or that of its index
view. -/
inductive RouteOf (req : PageRequest) (p : Page) (r : Route) : Prop
  | page (own : r = Route.ofChild p) (id : r.id = Namespace.ofDirectory p.dir req.root)
  | index (view : p.indexRoute? = some r)
      (id : r.id = Namespace.ofDirectory p.dir req.root ++ "|index")

/-- All routes of a tree differ in their ids, and each has the namespace of its page's
directory for an id, with `|index` behind it if it is the route of an index view. -/
theorem ids_distinct {tree : FileTree} (hsound : tree.Sound) {req : PageRequest}
    {pages : PageTree} (h : (load tree req).result = .ok pages) :
    (BarFree pages.root → NotAround req pages.root →
      ((Route.ofPage pages.root).flatten.map (·.id)).Nodup) ∧
    ∀ r ∈ (Route.ofPage pages.root).flatten, ∃ q ∈ pages.root.placed,
      q.2.dir = pages.pattern.target.below q.1 ∧ RouteOf req q.2 r := by
  obtain ⟨hformed, hkind⟩ := formed_of_load h
  obtain ⟨entries, -, hmirrors⟩ := mirrors_of_load hsound h
  refine ⟨fun hbars houtside => ?_, fun r hr => ?_⟩
  · have hids := id_of_placed hsound h houtside
    refine (Route.ids_perm hformed hkind hids).nodup_iff.2 ?_
    have hrows : ∀ row ∈ pages.root.placed.flatMap Route.rows,
        (∀ n ∈ row.1, Namespace.IsPart n) ∧ "index" ∉ row.1 := by
      intro row hrow
      obtain ⟨q, hq, hrow⟩ := List.mem_flatMap.1 hrow
      obtain ⟨last, hlast⟩ := (hmirrors.reached q.1).1 (List.mem_map_of_mem hq)
      rw [Route.fst_of_mem_rows hrow]
      refine ⟨fun n hn => ⟨((isPage_of_placed hsound h q hq).isName n hn).ne_empty,
        hbars q hq n hn⟩, fun hindex => ?_⟩
      have hparsed := reaches_parses hlast _ hindex
      revert hparsed
      decide +kernel
    refine List.Nodup.map_on (fun row hrow row' hrow' heq => ?_)
      (Route.rows_nodup hmirrors.distinct)
    exact Namespace.idAt_inj (hrows row hrow).1 (hrows row' hrow').1 (hrows row hrow).2
      (hrows row' hrow').2 heq
  · rw [← Route.ofChild_of_root hkind] at hr
    obtain ⟨q, hq, hr⟩ := List.mem_flatMap.1 ((Route.flatten_ofChild_perm hformed).mem_iff.1 hr)
    have hpage := isPage_of_placed hsound h q hq
    refine ⟨q, hq, hpage.dir, ?_⟩
    rcases List.mem_cons.1 hr with rfl | hindex
    · exact .page rfl ((Route.id_ofChild q.2).trans hpage.id)
    · rw [Option.mem_toList] at hindex
      exact .index hindex (by rw [Route.id_indexRoute hindex, hpage.id])

/-- The root of this tree is called like the routes of index views end. -/
theorem ids_distinct_below_index :
    ∃ pages, (load (inProject "index" Route.siblings) (requestOf "./index" "/")).result = .ok pages ∧
      BarFree pages.root ∧ NotAround (requestOf "./index" "/") pages.root ∧
      ((Route.ofPage pages.root).flatten.map (·.id)).Nodup ∧
      (Route.ofPage pages.root).flatten.map (·.id) =
        ["index", "index|index", "index|[1]a", "index|[1]b", "index|[-1]new", "index|[-2]old",
          "index|[0]rest"] := by
  have hloaded : (load (inProject "index" Route.siblings) (requestOf "./index" "/")).result.map
      (fun pages => (decide (BarFree pages.root),
        decide (NotAround (requestOf "./index" "/") pages.root),
        (Route.ofPage pages.root).flatten.map (·.id))) =
      .ok (true, true, ["index", "index|index", "index|[1]a", "index|[1]b", "index|[-1]new",
        "index|[-2]old", "index|[0]rest"]) := by
    decide +kernel
  cases hload : (load (inProject "index" Route.siblings) (requestOf "./index" "/")).result with
  | error e =>
      rw [hload] at hloaded
      exact nomatch hloaded
  | ok pages =>
      rw [hload] at hloaded
      obtain ⟨hbars, hrest⟩ := Prod.mk.inj (Except.ok.inj hloaded)
      obtain ⟨houtside, hids⟩ := Prod.mk.inj hrest
      rw [decide_eq_true_eq] at hbars houtside
      exact ⟨pages, rfl, hbars, houtside,
        (ids_distinct (by decide +kernel) hload).1 hbars houtside, hids⟩

/-- A project in a page of the tree that its module loads: the directory around the project has
the path `[1]z`, and so has a page from the project on. -/
def aroundProject : FileTree :=
  .dir [("[1]z", .dir [("index.tsx", .file ""), ("[1]a", .dir [("package.json", .file "\x7b\x7d"),
    ("src", .dir [("App.tsx", .file "")]), ("[1]z", .dir [("index.tsx", .file "")])])])]

def requestAround : PageRequest :=
  { pattern := "../..", base := "/", root := ⟨"/[1]z/[1]a"⟩, importer := ⟨"/[1]z/[1]a/src"⟩
    allowNoMeta := true }

theorem ids_repeated_around_project :
    ¬ ∀ (tree : FileTree) (req : PageRequest) (pages : PageTree), tree.Sound →
        (load tree req).result = .ok pages → BarFree pages.root →
        ((Route.ofPage pages.root).flatten.map (·.id)).Nodup := by
  intro hall
  have hloaded : (load aroundProject requestAround).result.map
      (fun pages => (decide (BarFree pages.root), (Route.ofPage pages.root).flatten.map (·.id))) =
      .ok (true, ["[1]z", "[1]z|index", "", "[1]z"]) := by
    decide +kernel
  cases hload : (load aroundProject requestAround).result with
  | error e =>
      rw [hload] at hloaded
      exact nomatch hloaded
  | ok pages =>
      rw [hload] at hloaded
      obtain ⟨hbars, hids⟩ := Prod.mk.inj (Except.ok.inj hloaded)
      rw [decide_eq_true_eq] at hbars
      have hdistinct := hall _ _ pages (by decide +kernel) hload hbars
      rw [hids] at hdistinct
      revert hdistinct
      decide

end PageTree

end SiteMacros
