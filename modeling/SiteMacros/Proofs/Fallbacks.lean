import SiteMacros.Proofs.MarkedNames
import SiteMacros.Proofs.RouteTrees

/-!
# What the fallback catches

The fallback of a page should catch whatever is below the page and is none of its other
children. Its route is made in two steps that do not know of each other: the fallback gets
a route like any child, its own segment joined to the page's route, and then the last
segment of that route is replaced by a star. The second step takes back what the first one
added if this was one segment.

It need not be. A fallback named `[0]` has no segment at all, the segment `.` adds nothing,
and `..` takes one back. Then the star takes the place of a segment of the page itself, so the
fallback of `/a` has the path `/*` and catches what is beside the page. Only at the root
there is nothing to take away. In all cases the path is the page's route with the segment,
`..` and `*` joined to it (`fallback_path_iff`).
-/

namespace SiteMacros

namespace UrlPath

/-! ## Stars for segments -/

theorem pieces_eq_map_split (text : String) :
    Text.pieces '/' text.toList = (Text.split '/' text).map String.toList := by
  rw [Text.split, List.map_map]
  exact (List.map_id'' (fun _ => String.toList_ofList) _).symm

theorem split_of_noSlash {s : String} (h : '/' ∉ s.toList) : Text.split '/' s = [s] := by
  rw [Text.split, Text.pieces_of_not_mem h, List.map_singleton, String.ofList_toList]

theorem render_concat (names : List String) (s : String) :
    render (names ++ [s]) = if names = [] then "/" ++ s else render names ++ ("/" ++ s) := by
  split
  · next hnil =>
      rw [hnil, List.nil_append, render, String.intercalate_singleton]
  · next hne =>
      rw [render, String.intercalate_append_of_ne_nil hne (List.cons_ne_nil s []),
        String.intercalate_singleton, render]
      simp only [String.append_assoc]

theorem isName_star : Path.IsName "*" := by
  decide

section

variable {names : List String} (h : ∀ s ∈ names, Path.IsName s)

include h

theorem render_inj {names' : List String} (h' : ∀ s ∈ names', Path.IsName s) :
    render names = render names' ↔ names = names' := by
  refine ⟨fun heq => ?_, congrArg render⟩
  have hstack := foldl_split_render h
  rw [heq, foldl_split_render h'] at hstack
  exact (List.reverse_inj.1 hstack).symm

theorem join_render (rel : String) :
    join (render names) rel = render ((Text.split '/' rel).foldl step names.reverse).reverse := by
  rw [join, resolve, List.foldl_append, foldl_split_render h]

theorem isName_concat {s : String} (hs : Path.IsName s) : ∀ t ∈ names ++ [s], Path.IsName t := by
  rw [List.forall_mem_append, List.forall_mem_singleton]
  exact ⟨h, hs⟩

theorem join_render_of_isName {s : String} (hs : Path.IsName s) :
    join (render names) s = render (names ++ [s]) := by
  rw [join_render h, split_of_noSlash hs.noSlash, List.foldl_cons, List.foldl_nil,
    step_of_isName hs, List.reverse_cons, List.reverse_reverse]

/-- The star takes the place of the last segment, if there is one. -/
theorem wildcard_render : wildcard (render names) = render (names.dropLast ++ ["*"]) := by
  cases names using List.reverseRecOn with
  | nil => decide +kernel
  | append_singleton before s =>
      have hbefore : ∀ t ∈ before, Path.IsName t := fun t ht => h t (List.mem_append_left _ ht)
      have hpieces : (Text.pieces '/' (render (before ++ [s])).toList).reverse =
          s.toList :: (("" :: before).map String.toList).reverse := by
        rw [pieces_eq_map_split, split_render fun t ht => (h t ht).noSlash,
          if_neg (List.append_ne_nil_of_right_ne_nil before (List.cons_ne_nil s [])),
          ← List.cons_append, List.map_append, List.reverse_append]
        rfl
      rw [wildcard, hpieces, List.dropLast_concat, render_concat]
      dsimp only
      rw [List.reverse_reverse]
      by_cases hnil : before = []
      · subst hnil
        rfl
      · have hhead : Text.joinPieces '/' (("" :: before).map String.toList) =
            (render before).toList := by
          have hsplit := split_render fun t ht => (hbefore t ht).noSlash
          rw [if_neg hnil] at hsplit
          rw [← hsplit, ← pieces_eq_map_split, Text.join_pieces]
        have hne : (render before).toList ≠ [] := by
          rw [render, String.toList_append]
          exact List.append_ne_nil_of_left_ne_nil (by decide) _
        rw [hhead, if_neg hne, if_neg hnil, String.ofList_toList]
        rfl

theorem isName_of_mem_step {segment : String} (hsegment : '/' ∉ segment.toList) :
    ∀ s ∈ step names.reverse segment, Path.IsName s := by
  have hsegments : ∀ s ∈ [segment], '/' ∉ s.toList := List.forall_mem_singleton.2 hsegment
  exact isName_of_mem_foldl_step hsegments fun s hs => h s (List.mem_reverse.1 hs)

/-- The star goes where the top of the stack was, with the segment on it. -/
theorem wildcard_join_render {segment : String} (hsegment : '/' ∉ segment.toList) :
    wildcard (join (render names) segment) =
      render ((step names.reverse segment).tail.reverse ++ ["*"]) := by
  rw [join_render h, split_of_noSlash hsegment, List.foldl_cons, List.foldl_nil,
    wildcard_render fun s hs => isName_of_mem_step h hsegment s (List.mem_reverse.1 hs),
    List.dropLast_reverse]

theorem wildcard_join_eq_join {segment : String} (hsegment : '/' ∉ segment.toList) :
    wildcard (join (render names) segment) = join (render names) (segment ++ "/../*") := by
  have hsplit : Text.split '/' (segment ++ "/../*") = [segment, "..", "*"] := by
    have htail : segment ++ "/../*" = segment ++ "/" ++ "../*" := by
      rw [String.append_assoc]
      rfl
    rw [htail, split_append_slash, split_of_noSlash hsegment]
    rfl
  rw [wildcard_join_render h hsegment, join_render h, hsplit]
  simp only [List.foldl_cons, List.foldl_nil, step_of_isName isName_star, List.reverse_cons]
  rfl

/-- The star stands right behind the path if the segment was one, or if there is nothing
before it to take away. -/
theorem wildcard_join_eq_iff {segment : String} (hsegment : '/' ∉ segment.toList) :
    wildcard (join (render names) segment) = join (render names) "*" ↔
      Path.IsName segment ∨ names = [] := by
  have hleft : ∀ s ∈ (step names.reverse segment).tail.reverse ++ ["*"], Path.IsName s :=
    isName_concat (fun s hs => isName_of_mem_step h hsegment s
      (List.mem_of_mem_tail (List.mem_reverse.1 hs))) isName_star
  rw [wildcard_join_render h hsegment, join_render_of_isName h isName_star,
    render_inj hleft (isName_concat h isName_star), List.append_left_inj]
  have hshort : ∀ stack : List String, stack.length ≤ names.length - 1 →
      (stack.reverse = names ↔ names = []) := by
    intro stack hle
    constructor
    · intro heq
      have hlength := congrArg List.length heq
      rw [List.length_reverse] at hlength
      exact List.length_eq_zero_iff.1 (by omega)
    · rintro rfl
      rw [List.length_eq_zero_iff.1 (Nat.le_zero.1 hle)]
      rfl
  by_cases hidle : segment = "" ∨ segment = "."
  · have hnot : ¬ Path.IsName segment := fun hname =>
      hidle.elim hname.ne_empty hname.ne_here
    have hstep : step names.reverse segment = names.reverse := by
      rw [step, if_pos (by simpa using hidle)]
    rw [hstep, or_iff_right hnot]
    exact hshort _ (by simp)
  by_cases hup : segment = ".."
  · have hnot : ¬ Path.IsName segment := fun hname => hname.ne_parent hup
    have hstep : step names.reverse segment = names.reverse.tail := by
      rw [step, if_neg (by simpa using hidle), if_pos hup]
    rw [hstep, or_iff_right hnot]
    exact hshort _ (by simp)
  · rw [not_or] at hidle
    have hname : Path.IsName segment := ⟨hidle.1, hidle.2, hup, hsegment⟩
    rw [step_of_isName hname, List.tail_cons, List.reverse_reverse]
    exact iff_of_true rfl (.inl hname)

end

end UrlPath

/-- A segment has no slash if the name has none. -/
theorem PageName.noSlash_segment {raw : String} {p : PageName} (h : parse? raw = some p)
    (hraw : '/' ∉ raw.toList) : '/' ∉ p.segment.toList := by
  obtain ⟨t, -, -, -, hreads⟩ := of_parse? h
  have htext : '/' ∉ stripTokens none raw.toList := by
    intro hslash
    rw [← map_fst_kept] at hslash
    obtain ⟨⟨_, i⟩, hkept, rfl⟩ := List.mem_map.1 hslash
    exact hraw (List.mem_of_getElem? (getElem?_of_mem_kept hkept))
  by_cases hparameter : (stripTokens none raw.toList).head? = some '_' ∧ t.marked = true
  · obtain ⟨rest, hrest⟩ := List.head?_eq_some_iff.1 hparameter.1
    rw [(hreads.parameter rest hrest hparameter.2).1, String.toList_ofList]
    rw [hrest] at htext
    exact List.not_mem_cons_of_ne_of_not_mem (by decide) (List.not_mem_of_not_mem_cons htext)
  · rw [(hreads.literal fun hhead => by simpa [hhead] using hparameter).1, String.toList_ofList]
    exact htext

/-! ## Routes of pages below pages -/

namespace Page

theorem placed_child {root p c : Page} {names : List String} (hp : (names, p) ∈ root.placed)
    (hc : c ∈ p.children) : (names ++ [c.rawName], c) ∈ root.placed := by
  induction root using Page.inductOn generalizing names with
  | step root ih =>
      rw [placed_eq, List.mem_cons, PageTree.mem_placedAll] at hp ⊢
      rcases hp with heq | ⟨d, hd, q, hq, heq⟩
      · obtain ⟨rfl, rfl⟩ := Prod.mk.inj heq
        exact .inr ⟨c, hc, _, c.placed_self, rfl⟩
      · obtain ⟨rfl, rfl⟩ := Prod.mk.inj heq
        exact .inr ⟨d, hd, _, ih d hd hq, rfl⟩

/-- Each page below a page has its route below the page's. -/
theorem Formed.mem_flatten {root p : Page} (h : root.Formed) {names : List String}
    (hp : (names, p) ∈ root.placed) : Route.ofChild p ∈ (Route.ofChild root).flatten := by
  induction root using Page.inductOn generalizing names with
  | step root ih =>
      rw [placed_eq, List.mem_cons, PageTree.mem_placedAll] at hp
      rw [Route.flatten_eq]
      rcases hp with heq | ⟨d, hd, q, hq, heq⟩
      · obtain ⟨-, rfl⟩ := Prod.mk.inj heq
        exact List.mem_cons_self
      · obtain ⟨-, rfl⟩ := Prod.mk.inj heq
        have hordered := h.children_perm.mem_iff.2 hd
        obtain ⟨-, -, -, -, hbelow⟩ := h
        refine List.mem_cons_of_mem _ (Route.mem_flattenAll.2 ⟨Route.ofChild d, ?_, ih d hd
          (hbelow d hd) hq⟩)
        rw [Route.children_ofChild, Route.children_ofPage]
        exact List.mem_append_right _ (List.mem_map_of_mem hordered)

end Page

namespace PageTree

section

variable {tree : FileTree} (hsound : tree.Sound) {req : PageRequest} {pages : PageTree}
  (h : (load tree req).result = .ok pages)

include hsound h

/-- A page's path is its name's segment joined to the path of the page above it. -/
theorem route_of_child {names : List String} {p c : Page}
    (hp : (names, p) ∈ pages.root.placed) (hc : c ∈ p.children) :
    ∃ parsed, PageName.parse? c.rawName = some parsed ∧ '/' ∉ parsed.segment.toList ∧
      c.route = UrlPath.join p.route parsed.segment := by
  obtain ⟨entries, hentries, hmirrors⟩ := mirrors_of_load hsound h
  obtain ⟨es, f, -, hframe, ⟨hparts, -⟩⟩ := hmirrors.made _ hp
  obtain ⟨es', g, hreaches, hframe', ⟨hparts', -⟩⟩ := hmirrors.made _ (Page.placed_child hp hc)
  rw [frameAt_append hframe] at hframe'
  obtain ⟨g', hchild, heq⟩ := Option.bind_eq_some_iff.1 hframe'
  cases heq
  obtain ⟨parsed, hparsed, hg⟩ := child?_eq_some hchild
  have hname : Path.IsName c.rawName := reaches_isName hreaches hentries _ (by simp)
  refine ⟨parsed, hparsed, PageName.noSlash_segment hparsed hname.noSlash, ?_⟩
  have hroute : p.route = f.route := congrArg Page.route hparts
  have hroute' : c.route = g.route := congrArg Page.route hparts'
  rw [hroute, hroute', hg]

/-- The path of the fallback is the path of its page with the fallback's segment, `..` and
`*` joined to it. That is the page's path with a star behind it if the segment is a name, and
otherwise only at the root. -/
theorem fallback_path_iff {names : List String} {p c : Page}
    (hp : (names, p) ∈ pages.root.placed) (hc : c ∈ p.children)
    (hkind : c.kind = some .fallback) :
    Route.ofChild c ∈ (Route.ofPage pages.root).flatten ∧
      UrlPath.join p.route "*" = (if p.route = "/" then "/*" else p.route ++ "/*") ∧
      ∃ parsed, PageName.parse? c.rawName = some parsed ∧
        (Route.ofChild c).path = UrlPath.join p.route (parsed.segment ++ "/../*") ∧
        ((Route.ofChild c).path = UrlPath.join p.route "*" ↔
          Path.IsName parsed.segment ∨ p.route = "/") := by
  obtain ⟨hformed, hroot⟩ := formed_of_load h
  have hplaced := Page.placed_child hp hc
  have hofChild : Route.ofChild pages.root = Route.ofPage pages.root := by
    rw [Route.ofChild, hroot]
    rfl
  have hpath : (Route.ofChild c).path = UrlPath.wildcard c.route := by
    rw [Route.ofChild, hkind, Route.ofPage_eq]
    rfl
  obtain ⟨parsed, hparsed, hslash, hroute⟩ := route_of_child hsound h hp hc
  have hcanonical := (isPage_of_placed hsound h _ hp).route
  obtain ⟨segments, hsegments, hrender⟩ : ∃ segments, (∀ s ∈ segments, Path.IsName s) ∧
      p.route = UrlPath.render segments :=
    ⟨_, UrlPath.isName_of_mem_resolve, hcanonical⟩
  have hempty : p.route = "/" ↔ segments = [] := by
    have hnil : ∀ s ∈ ([] : List String), Path.IsName s := fun s hs => absurd hs List.not_mem_nil
    rw [hrender]
    exact UrlPath.render_inj hsegments hnil
  refine ⟨hofChild ▸ hformed.mem_flatten hplaced, ?_, parsed, hparsed, ?_, ?_⟩
  · rw [hrender, UrlPath.join_render_of_isName hsegments UrlPath.isName_star,
      UrlPath.render_concat, ← hrender]
    simp only [hempty]
    rfl
  · rw [hpath, hroute, hrender]
    exact UrlPath.wildcard_join_eq_join hsegments hslash
  · rw [hpath, hroute, hempty, hrender]
    exact UrlPath.wildcard_join_eq_iff hsegments hslash

end

/-- A page with the path `/a`, and with a fallback of this name. -/
def withFallback (name : String) : FileTree :=
  inProject "pages" [("[1]a", .dir [("meta.ts", .file ""),
    (name, .dir [("index.tsx", .file ""), ("meta.ts", .file "")])])]

/-- The pages two names below the root: the path of the page above, and the name, the kind
and the path of each. -/
def pathsBelow (pages : PageTree) : List (String × String × Option PageKind × String) :=
  pages.root.children.flatMap fun p =>
    p.children.map fun c => (p.route, c.rawName, c.kind, (Route.ofChild c).path)

theorem exists_of_mem_pathsBelow {pages : PageTree} {route name path : String}
    {kind : Option PageKind} (h : (route, name, kind, path) ∈ pathsBelow pages) :
    ∃ p c, ([p.rawName], p) ∈ pages.root.placed ∧ c ∈ p.children ∧ p.route = route ∧
      c.rawName = name ∧ c.kind = kind ∧ (Route.ofChild c).path = path := by
  obtain ⟨p, hp, hbelow⟩ := List.mem_flatMap.1 h
  obtain ⟨c, hc, heq⟩ := List.mem_map.1 hbelow
  cases heq
  exact ⟨p, c, Page.placed_child pages.root.placed_self hp, hc, rfl, rfl, rfl, rfl⟩

/-- The fallback `[0]rest` of `/a` catches what is below `/a`. -/
theorem fallback_path_of_named :
    ∃ pages p c, (load (withFallback "[0]rest") (requestOf "./pages" "/")).result = .ok pages ∧
      ([p.rawName], p) ∈ pages.root.placed ∧ c ∈ p.children ∧ c.kind = some .fallback ∧
      p.route = "/a" ∧ (Route.ofChild c).path = UrlPath.join p.route "*" := by
  have hread : (load (withFallback "[0]rest") (requestOf "./pages" "/")).result.map pathsBelow =
      .ok [("/a", "[0]rest", some .fallback, "/a/*")] := by decide +kernel
  cases hload : (load (withFallback "[0]rest") (requestOf "./pages" "/")).result with
  | error e =>
      rw [hload] at hread
      exact nomatch hread
  | ok pages =>
      rw [hload] at hread
      obtain ⟨p, c, hp, hc, hroute, hname, hkind, -⟩ :=
        exists_of_mem_pathsBelow (Except.ok.inj hread ▸ List.mem_cons_self)
      obtain ⟨-, -, parsed, hparsed, -, hiff⟩ :=
        fallback_path_iff (by decide +kernel) hload hp hc hkind
      have hrest : PageName.parse? "[0]rest" = some ⟨.fallback, false, "rest", "rest"⟩ := by
        decide +kernel
      rw [hname, hrest] at hparsed
      cases hparsed
      exact ⟨pages, p, c, rfl, hp, hc, hkind, hroute, hiff.2 (.inl (by decide))⟩

/-- The fallback `[0]` of `/a` catches what is beside `/a`. -/
theorem fallback_path_of_bare :
    ¬ ∀ (tree : FileTree) (req : PageRequest) (pages : PageTree), tree.Sound →
      (load tree req).result = .ok pages → ∀ names p c, (names, p) ∈ pages.root.placed →
        c ∈ p.children → c.kind = some .fallback →
          (Route.ofChild c).path = UrlPath.join p.route "*" := by
  intro hall
  have hread : (load (withFallback "[0]") (requestOf "./pages" "/")).result.map pathsBelow =
      .ok [("/a", "[0]", some .fallback, "/*")] := by decide +kernel
  cases hload : (load (withFallback "[0]") (requestOf "./pages" "/")).result with
  | error e =>
      rw [hload] at hread
      exact nomatch hread
  | ok pages =>
      rw [hload] at hread
      obtain ⟨p, c, hp, hc, hroute, -, hkind, hpath⟩ :=
        exists_of_mem_pathsBelow (Except.ok.inj hread ▸ List.mem_cons_self)
      have hcatches := hall _ _ pages (by decide +kernel) hload _ p c hp hc hkind
      rw [hpath, hroute] at hcatches
      exact absurd hcatches (by decide +kernel)

end PageTree

end SiteMacros
