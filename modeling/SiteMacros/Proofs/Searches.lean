import SiteMacros.Proofs.GlobTexts
import SiteMacros.Proofs.Walks

/-!
# Searches that stay in a directory

A search for files depends on what it meets on its way, and that can be more than the
directories that it finds files in: `../locales/*.yaml` is searched beside the directory
it is written for. It stays in a directory if its steps lead there one by one, each a name
of the directory's path, and from there on never out again (`leadsInto`, `stays`).

Such a search finds the same in any two file trees that hold the same at and below the
directory: until it has come to the directory it only asks for what is on the way there, and
this is in both (`relatedInto`), and below the directory the trees are alike (`foundBelow`).
With `..` the argument is by the number of names that the search is below the directory at
least, which each name and each `**` raises and each `..` lowers. Both are proved step by
step, with one rule for each kind of step.
-/

namespace SiteMacros

open FileTree (stepOf deeper Shared SameBelow Sound Alike AgreeBelow)

namespace Glob

/-! ## Steps that lead into a directory -/

/-- The one name that the tokens match, if they are characters and classes of a single
character. -/
def only? : List Token → Option (List Char)
  | [] => some []
  | .char c :: ts => (only? ts).map (c :: ·)
  | .within [.single c] :: ts => (only? ts).map (c :: ·)
  | _ :: _ => none

/-- The component that the step adds to a path, if it can be only one. -/
def Step.way? : Step → Option (Option Component)
  | .literal name => some (stepOf name)
  | .wild ts => (only? ts).map fun cs => some (.name (String.ofList cs))
  | .deep => none

/-- Do the steps stay at or below a directory, from `depth` names below it? -/
def stays : List Step → Nat → Bool
  | [], _ => true
  | .literal name :: rest, depth => (deeper depth name).any (stays rest)
  | .wild ts :: rest, depth =>
      (dotSteps ts).all (fun s => (deeper depth s).any (stays rest)) && stays rest (depth + 1)
  | [.deep], _ => true
  | .deep :: _ :: rest, depth => stays rest (depth + 1)

/-- Do the steps lead through the components, to steps of which `last` holds? -/
def leadsThrough (last : List Step → Bool) : List Step → List Component → Bool
  | steps, [] => last steps
  | [], _ :: _ => false
  | s :: rest, c :: cs =>
      match s.way? with
      | some none => leadsThrough last rest (c :: cs)
      | some (some way) => decide (way = c) && leadsThrough last rest cs
      | none => false

/-- Do the steps lead through the components, and stay in the directory there? -/
def leadsInto : List Step → List Component → Bool
  | steps, [] => stays steps 0
  | [], _ :: _ => false
  | s :: rest, c :: cs =>
      match s.way? with
      | some none => leadsInto rest (c :: cs)
      | some (some way) => decide (way = c) && leadsInto rest cs
      | none => false

theorem leadsInto_eq (steps : List Step) (cs : List Component) :
    leadsInto steps cs = leadsThrough (stays · 0) steps cs := by
  induction steps generalizing cs with
  | nil => cases cs <;> rfl
  | cons s rest ih =>
      cases cs with
      | nil => rfl
      | cons c cs => simp only [leadsInto, leadsThrough, ih]

/-- The texts that are stepped into are pieces of a path. -/
def ArePieces (steps : List Step) : Prop :=
  ∀ name, Step.literal name ∈ steps → '/' ∉ name.toList

theorem ArePieces.tail {s : Step} {rest : List Step} (h : ArePieces (s :: rest)) :
    ArePieces rest :=
  fun name hname => h name (List.mem_cons_of_mem s hname)

theorem matchTokens_only {ts : List Token} {cs : List Char} (h : only? ts = some cs)
    (name : List Char) : matchTokens ts name = true ↔ name = cs := by
  induction ts generalizing cs name with
  | nil =>
      cases h
      exact List.isEmpty_iff
  | cons t ts ih =>
      rw [only?.eq_def] at h
      split at h
      · next hnil => cases hnil
      · next c ts' heq =>
          obtain ⟨rfl, rfl⟩ := List.cons.inj heq
          obtain ⟨cs, hcs, rfl⟩ := Option.map_eq_some_iff.1 h
          cases name with
          | nil => exact iff_of_false Bool.false_ne_true (List.cons_ne_nil c cs).symm
          | cons a name =>
              rw [matchTokens, Bool.and_eq_true, ih hcs, beq_iff_eq, List.cons.injEq, eq_comm]
      · next c ts' heq =>
          obtain ⟨rfl, rfl⟩ := List.cons.inj heq
          obtain ⟨cs, hcs, rfl⟩ := Option.map_eq_some_iff.1 h
          cases name with
          | nil => exact iff_of_false Bool.false_ne_true (List.cons_ne_nil c cs).symm
          | cons a name =>
              rw [matchTokens, Bool.and_eq_true, ih hcs, List.cons.injEq]
              simp [inClass, eq_comm (a := c)]
      · cases h

/-! ## Findings in two trees -/

section

variable {t t' : FileTree} {cs : List Component} {home : List String}

/-- One search has found the same in both trees, at or below an address. -/
structure Found (t t' : FileTree) (cs : List Component) (home : List String) (xs xs' : List Path) :
    Prop where
  eq : xs' = xs
  shared : ∀ q ∈ xs, ∃ ms, Shared t t' cs (home ++ ms) q

theorem Found.nil : Found t t' cs home [] [] :=
  ⟨rfl, fun _ hq => absurd hq List.not_mem_nil⟩

theorem Found.append {xs xs' ys ys' : List Path} (hx : Found t t' cs home xs xs')
    (hy : Found t t' cs home ys ys') : Found t t' cs home (xs ++ ys) (xs' ++ ys') where
  eq := by rw [hx.eq, hy.eq]
  shared q hq := (List.mem_append.1 hq).elim (hx.shared q) (hy.shared q)

theorem Found.flatMap {α : Type} {as : List α} {f f' : α → List Path}
    (h : ∀ a ∈ as, Found t t' cs home (f a) (f' a)) :
    Found t t' cs home (as.flatMap f) (as.flatMap f') := by
  induction as with
  | nil => exact .nil
  | cons a as ih =>
      rw [List.flatMap_cons, List.flatMap_cons]
      exact (h a List.mem_cons_self).append (ih fun b hb => h b (List.mem_cons_of_mem a hb))

theorem Found.filter {xs xs' : List Path} (hx : Found t t' cs home xs xs') (f f' : Path → Bool)
    (hf : ∀ ms q, Shared t t' cs (home ++ ms) q → f' q = f q) :
    Found t t' cs home (xs.filter f) (xs'.filter f') where
  eq := by
    rw [hx.eq]
    refine List.filter_congr fun q hq => ?_
    obtain ⟨ms, hms⟩ := hx.shared q hq
    exact hf ms q hms
  shared q hq := hx.shared q (List.mem_filter.1 hq).1

/-- The findings of a directory's entries, each under the entry's name. -/
def entriesFound (g : String → FileTree → Option (List Path)) (es : List (String × FileTree)) :
    List (String × List Path) :=
  es.filterMap fun e => (g e.1 e.2).map (e.1, ·)

theorem mem_entriesFound {g : String → FileTree → Option (List Path)}
    {es : List (String × FileTree)} {x : String × List Path} :
    x ∈ entriesFound g es ↔ ∃ c, (x.1, c) ∈ es ∧ g x.1 c = some x.2 := by
  rw [entriesFound, List.mem_filterMap]
  constructor
  · rintro ⟨e, he, hx⟩
    obtain ⟨xs, hxs, rfl⟩ := Option.map_eq_some_iff.1 hx
    exact ⟨e.2, he, hxs⟩
  · rintro ⟨c, hc, hx⟩
    exact ⟨(x.1, c), hc, by rw [hx]; rfl⟩

theorem entriesFound_nodup (g : String → FileTree → Option (List Path))
    {es : List (String × FileTree)} (hes : (es.map (·.1)).Nodup) :
    ((entriesFound g es).map (·.1)).Nodup := by
  refine hes.sublist ?_
  clear hes
  induction es with
  | nil => exact List.Sublist.refl _
  | cons e es ih =>
      rw [entriesFound, List.filterMap_cons, List.map_cons]
      cases g e.1 e.2 with
      | none => exact ih.cons _
      | some xs => exact ih.cons_cons _

theorem inOrder_congr {es fs : List (String × FileTree)} (halike : Alike (.dir es) (.dir fs))
    (hes : (es.map (·.1)).Nodup) (hfs : (fs.map (·.1)).Nodup)
    {g g' : String → FileTree → Option (List Path)}
    (hsame : ∀ name c c', (name, c) ∈ es → (name, c') ∈ fs → c.Alike c' →
      g' name c' = g name c) :
    inOrder (entriesFound g' fs) = inOrder (entriesFound g es) := by
  have hmem : ∀ x, x ∈ entriesFound g' fs ↔ x ∈ entriesFound g es := by
    intro x
    rw [mem_entriesFound, mem_entriesFound]
    constructor
    · rintro ⟨c', hc', hx⟩
      obtain ⟨c, hc, hcc⟩ := halike.symm.entry hfs hc'
      exact ⟨c, hc, by rw [← hsame x.1 c c' hc hc' hcc.symm, hx]⟩
    · rintro ⟨c, hc, hx⟩
      obtain ⟨c', hc', hcc⟩ := halike.entry hes hc
      exact ⟨c', hc', by rw [hsame x.1 c c' hc hc' hcc, hx]⟩
  rw [Glob.inOrder, Glob.inOrder,
    sorted_eq_of_mem_iff (entriesFound_nodup g' hfs) (entriesFound_nodup g hes) hmem]

theorem Found.inOrder {es fs : List (String × FileTree)} (halike : Alike (.dir es) (.dir fs))
    (hes : (es.map (·.1)).Nodup) (hfs : (fs.map (·.1)).Nodup)
    {g g' : String → FileTree → Option (List Path)}
    (hsame : ∀ name c c', (name, c) ∈ es → (name, c') ∈ fs → c.Alike c' →
      g' name c' = g name c)
    (hshared : ∀ name c xs, (name, c) ∈ es → g name c = some xs →
      ∀ q ∈ xs, ∃ ms, Shared t t' cs (home ++ ms) q) :
    Found t t' cs home (inOrder (entriesFound g es)) (inOrder (entriesFound g' fs)) := by
  refine ⟨inOrder_congr halike hes hfs hsame, fun q hq => ?_⟩
  obtain ⟨x, hx, hq⟩ := List.mem_flatMap.1 hq
  obtain ⟨c, hc, hg⟩ := mem_entriesFound.1 ((sorted_perm _ _).mem_iff.1 hx)
  exact hshared x.1 c x.2 hc hg q hq

theorem belowEntries_eq (visit : String → Path → List Path) (p : Path)
    (es : List (String × FileTree)) :
    belowEntries visit p es = entriesFound
      (fun name c => some (visit name (p.join name) ++ below visit (p.join name) c)) es := by
  induction es with
  | nil => rfl
  | cons e es ih =>
      rw [belowEntries, ih]
      rfl

/-- Below nodes that are alike the same is found, if the same is found at each node. -/
theorem below_found (h : SameBelow t t' home) (hsound : t.Sound) (hsound' : t'.Sound)
    {visit visit' : String → Path → List Path} (node : FileTree) :
    ∀ (ns : List String) (p : Path) (node' : FileTree), Shared t t' cs (home ++ ns) p →
      t.get? (home ++ ns) = some node → t'.get? (home ++ ns) = some node' → node.Alike node' →
      (∀ ms name q, ns.length < ms.length → Shared t t' cs (home ++ ms) q →
        Found t t' cs home (visit name q) (visit' name q)) →
      Found t t' cs home (below visit p node) (below visit' p node') := by
  induction node using FileTree.inductOn with
  | leaf text =>
      intro ns p node' _ _ _ halike _
      rw [halike.eq_file]
      exact .nil
  | node es ih =>
      intro ns p node' hp hget hget' halike hvisit
      obtain ⟨fs, rfl⟩ := halike.eq_dir
      have hes := hsound.distinct _ es hget
      have hfs := hsound'.distinct _ fs hget'
      have hfound : ∀ name c c', (name, c) ∈ es → (name, c') ∈ fs → c.Alike c' →
          Found t t' cs home (visit name (p.join name) ++ below visit (p.join name) c)
            (visit' name (p.join name) ++ below visit' (p.join name) c') := by
        intro name c c' hc hc' hcc
        have hchild := FileTree.get?_entry hget hes hc
        have hchild' := FileTree.get?_entry hget' hfs hc'
        rw [List.append_assoc] at hchild hchild'
        have hjoin := hp.join_name h (hsound.names _ es hget (name, c) hc) (by rw [hchild]; rfl)
        have hlonger : ns.length < (ns ++ [name]).length := by simp
        refine (hvisit _ name _ hlonger hjoin).append ?_
        exact ih (name, c) hc _ _ c' hjoin hchild hchild' hcc
          fun ms n q hms => hvisit ms n q (Nat.lt_trans hlonger hms)
      rw [below, below, belowEntries_eq, belowEntries_eq]
      refine .inOrder halike hes hfs (fun name c c' hc hc' hcc => ?_) fun name c xs hc hxs => ?_
      · rw [(hfound name c c' hc hc' hcc).eq]
      · obtain ⟨c', hc', hcc⟩ := halike.entry hes hc
        cases hxs
        exact (hfound name c c' hc hc' hcc).shared

/-! ## A walk in two trees -/

theorem walkSteps_literal {name : String} {rest : List Step} {p : Path}
    (h : p.text ≠ "" ∨ name ≠ "." ∧ name ≠ "..") :
    walkSteps t (.literal name :: rest) p =
      if t.exists? (p.join name) then walkSteps t rest (p.join name) else [] := by
  rw [walkSteps]
  by_cases hdots : name = "." ∨ name = ".."
  · have hp : p.text ≠ "" := h.resolve_right fun hne => hdots.elim hne.1 hne.2
    rw [FileTree.exists?_join_dots hp hdots]
    simp [hdots]
  · simp [hdots]

/-- The entries that a component with special characters matches. -/
theorem walkSteps_wild {ts : List Token} {rest : List Step} {p : Path}
    {es : List (String × FileTree)} (h : t.find p = .ok (.dir es)) :
    walkSteps t (.wild ts :: rest) p =
      (dotSteps ts).flatMap (fun s => walkSteps t rest (p.join s)) ++
        inOrder (entriesFound (fun name _ =>
          if matchTokens ts name.toList then some (walkSteps t rest (p.join name)) else none)
            es) := by
  rw [walkSteps, h]
  dsimp only
  rw [entriesFound]
  refine congrArg (_ ++ inOrder ·) (List.filterMap_congr fun e _ => ?_)
  split <;> rfl

theorem dotSteps_subset {ts : List Token} {s : String} (h : s ∈ dotSteps ts) :
    s = ".." ∨ s = "." := by
  rw [dotSteps] at h
  split at h
  · simpa using (List.mem_filter.1 h).1
  · exact absurd h List.not_mem_nil

/-- A walk with these steps that stays below an address finds the same in both trees. -/
def FoundBelow (t t' : FileTree) (cs : List Component) (home : List String) (steps : List Step) :
    Prop :=
  ∀ depth ns p, Shared t t' cs (home ++ ns) p → depth ≤ ns.length → stays steps depth = true →
    Found t t' cs home (walkSteps t steps p) (walkSteps t' steps p)

/-- One step further, where the trees are walked the same. -/
theorem FoundBelow.join {rest : List Step} (hrest : FoundBelow t t' cs home rest)
    (h : SameBelow t t' home) {ns : List String} {p : Path} (hp : Shared t t' cs (home ++ ns) p)
    {piece : String} (hpiece : '/' ∉ piece.toList) {depth : Nat} (hdepth : depth ≤ ns.length)
    (hstays : (deeper depth piece).any (stays rest) = true) :
    t'.exists? (p.join piece) = t.exists? (p.join piece) ∧
      (t.exists? (p.join piece) = true →
        Found t t' cs home (walkSteps t rest (p.join piece))
          (walkSteps t' rest (p.join piece))) := by
  obtain ⟨k, hk, hstays⟩ := Option.any_eq_true _ _ |>.1 hstays
  obtain ⟨hsame, hthere⟩ := hp.join h hpiece hdepth hk
  refine ⟨hsame, fun hexists => ?_⟩
  obtain ⟨ms, hms, hq⟩ := hthere hexists
  exact hrest k ms _ hq hms hstays

theorem FoundBelow.literal {name : String} {rest : List Step}
    (hrest : FoundBelow t t' cs home rest) (h : SameBelow t t' home)
    (hname : '/' ∉ name.toList) : FoundBelow t t' cs home (.literal name :: rest) := by
  intro depth ns p hp hdepth hstays
  rw [stays] at hstays
  obtain ⟨hsame, hfound⟩ := hrest.join h hp hname hdepth hstays
  rw [walkSteps_literal (.inl hp.text_ne), walkSteps_literal (.inl hp.text_ne), hsame]
  split
  · next hexists => exact hfound hexists
  · exact .nil

theorem FoundBelow.wild {ts : List Token} {rest : List Step}
    (hrest : FoundBelow t t' cs home rest) (h : SameBelow t t' home) (hsound : t.Sound)
    (hsound' : t'.Sound) : FoundBelow t t' cs home (.wild ts :: rest) := by
  intro depth ns p hp hdepth hstays
  rw [stays, Bool.and_eq_true, List.all_eq_true] at hstays
  obtain ⟨hdots, hnames⟩ := hstays
  obtain ⟨node, node', hnode, hnode', hfind, hfind', halike⟩ := hp.find h
  cases node with
  | file text =>
      rw [halike.eq_file] at hfind'
      rw [walkSteps, walkSteps, hfind, hfind']
      exact .nil
  | dir es =>
      obtain ⟨fs, rfl⟩ := halike.eq_dir
      have hes := hsound.distinct _ es hnode
      have hfs := hsound'.distinct _ fs hnode'
      have hfound : ∀ name c, (name, c) ∈ es → Found t t' cs home
          (walkSteps t rest (p.join name)) (walkSteps t' rest (p.join name)) := by
        intro name c hc
        have hchild := FileTree.get?_entry hnode hes hc
        rw [List.append_assoc] at hchild
        have hjoin := hp.join_name h (hsound.names _ es hnode (name, c) hc) (by rw [hchild]; rfl)
        exact hrest (depth + 1) (ns ++ [name]) _ hjoin (by simp; omega) hnames
      rw [walkSteps_wild hfind, walkSteps_wild hfind']
      refine .append (.flatMap fun s hs => ?_) ?_
      · have hslash : '/' ∉ s.toList := by
          rcases dotSteps_subset hs with rfl | rfl <;> decide
        refine (hrest.join h hp hslash hdepth (hdots s hs)).2 ?_
        rw [FileTree.exists?_join_dots hp.text_ne (dotSteps_subset hs).symm, FileTree.isDir, hfind]
      · refine .inOrder halike hes hfs (fun name c c' hc _ _ => ?_) fun name c xs hc hxs => ?_
        · rw [(hfound name c hc).eq]
        · split at hxs
          · cases hxs
            exact (hfound name c hc).shared
          · cases hxs

theorem FoundBelow.deep (h : SameBelow t t' home) (hsound : t.Sound) (hsound' : t'.Sound) :
    FoundBelow t t' cs home [.deep] := by
  intro depth ns p hp hdepth hstays
  obtain ⟨node, node', hnode, hnode', hfind, hfind', halike⟩ := hp.find h
  rw [walkSteps, walkSteps, hfind, hfind']
  refine below_found h hsound hsound' node ns p node' hp hnode hnode' halike ?_
  intro ms _ q _ hq
  rw [hq.isDir_eq h]
  split
  · exact ⟨rfl, fun q' hq' => ⟨ms, List.mem_singleton.1 hq' ▸ hq⟩⟩
  · exact .nil

theorem FoundBelow.deep_cons {next : Step} {rest : List Step}
    (hrest : FoundBelow t t' cs home rest) (h : SameBelow t t' home) (hsound : t.Sound)
    (hsound' : t'.Sound) : FoundBelow t t' cs home (.deep :: next :: rest) := by
  intro depth ns p hp hdepth hstays
  obtain ⟨node, node', hnode, hnode', hfind, hfind', halike⟩ := hp.find h
  rw [stays] at hstays
  rw [walkSteps, walkSteps, hfind, hfind']
  refine below_found h hsound hsound' node ns p node' hp hnode hnode' halike ?_
  intro ms name q hms hq
  split
  · exact hrest (depth + 1) ms q hq (by omega) hstays
  · exact .nil

theorem foundBelow (h : SameBelow t t' home) (hsound : t.Sound) (hsound' : t'.Sound) :
    (steps : List Step) → ArePieces steps → FoundBelow t t' cs home steps
  | [], _ => fun _ ns _ hp _ _ => ⟨rfl, fun _ hq => ⟨ns, List.mem_singleton.1 hq ▸ hp⟩⟩
  | .literal name :: rest, hpieces =>
      (foundBelow h hsound hsound' rest hpieces.tail).literal h (hpieces name List.mem_cons_self)
  | .wild _ :: rest, hpieces =>
      (foundBelow h hsound hsound' rest hpieces.tail).wild h hsound hsound'
  | [.deep], _ => .deep h hsound hsound'
  | .deep :: _ :: rest, hpieces =>
      (foundBelow h hsound hsound' rest hpieces.tail.tail).deep_cons h hsound hsound'

/-! ## A walk into a directory -/

/-- A walk through the components has led from one address to the other. -/
def Ahead (t : FileTree) (here : List String) (cs : List Component) (home : List String) : Prop :=
  ∃ pieces, t.walk here pieces = .ok home ∧ pieces.filterMap stepOf = cs

theorem Ahead.nil {here : List String} (h : Ahead t here [] home) : here = home := by
  obtain ⟨pieces, hwalk, hpieces⟩ := h
  rw [FileTree.walk_eq_follow hwalk, hpieces]
  rfl

/-- Before another component there is a directory, and a piece that stands for the
component leads on. -/
theorem Ahead.cons {here : List String} {c : Component} (h : Ahead t here (c :: cs) home) :
    (∃ es, t.get? here = some (.dir es)) ∧
      ∃ piece next, stepOf piece = some c ∧ t.walk here [piece] = .ok next ∧
        Ahead t next cs home := by
  obtain ⟨pieces, hwalk, hpieces⟩ := h
  induction pieces with
  | nil => cases hpieces
  | cons q qs ih =>
      have hsplit := FileTree.walk_append t here [q] qs
      rw [List.singleton_append, hwalk] at hsplit
      rcases hget : t.get? here with _ | (text | es)
      · simp [FileTree.walk, hget] at hwalk
      · simp [FileTree.walk, hget] at hwalk
      · refine ⟨⟨es, rfl⟩, ?_⟩
        cases hstep : stepOf q with
        | none =>
            rw [FileTree.walk_idle hget (FileTree.idle_of_stepOf hstep)] at hsplit
            rw [List.filterMap_cons_none hstep] at hpieces
            exact (ih hsplit.symm hpieces).2
        | some way =>
            rw [List.filterMap_cons_some hstep] at hpieces
            obtain ⟨rfl, hrest⟩ := List.cons.inj hpieces
            cases hnext : t.walk here [q] with
            | error e =>
                rw [hnext] at hsplit
                cases hsplit
            | ok next =>
                rw [hnext] at hsplit
                exact ⟨q, next, hstep, hnext, qs, hsplit.symm, hrest⟩

theorem walkSteps_empty {s : Step} {rest : List Step}
    (h : ∀ name, s = .literal name → name = "" ∨ name = "." ∨ name = "..") :
    walkSteps t (s :: rest) ⟨""⟩ = [] := by
  cases s with
  | literal name =>
      rcases h name rfl with rfl | rfl | rfl <;> rfl
  | wild ts => rfl
  | deep => cases rest <;> rfl

/-- A component that matches one name only is as good as the name. -/
theorem walkSteps_wild_only {ts : List Token} {rest : List Step} {p : Path}
    {es : List (String × FileTree)} (hfind : t.find p = .ok (.dir es))
    (hes : (es.map (·.1)).Nodup) {name : String} {c : FileTree} (hc : (name, c) ∈ es)
    (hname : name ≠ "." ∧ name ≠ "..") (hts : only? ts = some name.toList) :
    walkSteps t (.wild ts :: rest) p = walkSteps t rest (p.join name) := by
  have hmatch : ∀ n : String, matchTokens ts n.toList = true ↔ n = name := by
    intro n
    rw [matchTokens_only hts, String.toList_inj]
  have hdots : dotSteps ts = [] := by
    rw [dotSteps]
    split
    · refine List.filter_eq_nil_iff.2 fun s hs hmatched => ?_
      rw [hmatch] at hmatched
      subst hmatched
      simp at hs
      exact hs.elim hname.2 hname.1
    · rfl
  rw [walkSteps_wild hfind, hdots]
  have hfound : inOrder (entriesFound (fun n _ =>
      if matchTokens ts n.toList then some (walkSteps t rest (p.join n)) else none) es) =
      inOrder [(name, walkSteps t rest (p.join name))] := by
    have hone : ([(name, walkSteps t rest (p.join name))].map (·.1)).Nodup :=
      List.nodup_singleton name
    rw [inOrder, inOrder, sorted_eq_of_mem_iff (entriesFound_nodup _ hes) hone fun x => ?_]
    rw [mem_entriesFound, List.mem_singleton]
    constructor
    · rintro ⟨c', hc', hx⟩
      split at hx
      · next hmatched =>
          rw [hmatch] at hmatched
          rw [hmatched] at hx
          exact Prod.ext hmatched (Option.some.inj hx).symm
      · cases hx
    · rintro rfl
      exact ⟨c, hc, by rw [if_pos ((hmatch name).2 rfl)]⟩
  rw [hfound]
  exact List.append_nil _

/-- A name that is ahead is an entry of the directory that the walk is in. -/
theorem Ahead.entry {here : List String} {name : String}
    (h : Ahead t here (.name name :: cs) home) :
    ∃ es c, t.get? here = some (.dir es) ∧ (name, c) ∈ es := by
  obtain ⟨⟨es, hes⟩, piece, next, hpiece, hwalk, -⟩ := h.cons
  rcases FileTree.stepOf_eq_some hpiece with ⟨-, hc⟩ | ⟨⟨hempty, hdot, hup⟩, hc⟩
  · cases hc
  · cases Component.name.inj hc
    rw [FileTree.walk_name hes hempty hdot hup, FileTree.get?_append, hes] at hwalk
    cases hlookup : es.lookup name with
    | some c => exact ⟨es, c, hes, FileTree.mem_of_lookup hlookup⟩
    | none =>
        have hnone : (FileTree.dir es).get? [name] = none := by
          rw [FileTree.get?, FileTree.child?_dir, hlookup]
        rw [Option.bind_some, hnone] at hwalk
        cases hwalk

/-- A search is at one address in both trees, and what is left of the components leads from
there to the directory. -/
structure Approaching (t t' : FileTree) (cs : List Component) (home here : List String)
    (left : List Component) (p : Path) : Prop where
  reach : t.reach p = .ok here
  reach' : t'.reach p = .ok here
  ahead : Ahead t here left home
  ahead' : Ahead t' here left home
  components : p.components ++ left = cs
  started : p.text ≠ "" ∨ left ≠ []

namespace Approaching

variable {here : List String} {c : Component} {left : List Component} {p : Path}

theorem shared (hp : Approaching t t' cs home here [] p) : Shared t t' cs (home ++ []) p := by
  have hcomponents := hp.components
  have hreach := hp.reach
  have hreach' := hp.reach'
  rw [hp.ahead.nil] at hreach hreach'
  rw [List.append_nil] at hcomponents ⊢
  exact ⟨hp.started.resolve_right (· rfl), hreach, hreach', hcomponents ▸ List.prefix_refl _⟩

theorem exists? (hp : Approaching t t' cs home here left p) (hne : p.text ≠ "") :
    t.exists? p = true ∧ t'.exists? p = true :=
  ⟨(FileTree.exists?_iff hne).2 ⟨here, hp.reach⟩, (FileTree.exists?_iff hne).2 ⟨here, hp.reach'⟩⟩

/-- A piece that does not count leads nowhere else. -/
theorem idle (hp : Approaching t t' cs home here (c :: left) p) {piece : String}
    (hslash : '/' ∉ piece.toList) (hne : p.text ≠ "") (hstep : stepOf piece = none) :
    Approaching t t' cs home here (c :: left) (p.join piece) := by
  obtain ⟨⟨es, hes⟩, -⟩ := hp.ahead.cons
  obtain ⟨⟨fs, hfs⟩, -⟩ := hp.ahead'.cons
  have hidle := FileTree.idle_of_stepOf hstep
  refine ⟨?_, ?_, hp.ahead, hp.ahead', ?_, .inr (List.cons_ne_nil c left)⟩
  · rw [FileTree.reach_join hslash (.inl hne), hp.reach]
    exact FileTree.walk_idle hes hidle
  · rw [FileTree.reach_join hslash (.inl hne), hp.reach']
    exact FileTree.walk_idle hfs hidle
  · rw [FileTree.components_join hslash (.inl hne), hstep, ← hp.components]
    exact congrArg (· ++ _) (List.append_nil _)

/-- The piece that stands for the next component leads on. -/
theorem next (hp : Approaching t t' cs home here (c :: left) p) {piece : String}
    (hslash : '/' ∉ piece.toList) (hne : p.text ≠ "" ∨ piece ≠ "" ∧ piece ≠ ".")
    (hstep : stepOf piece = some c) :
    ∃ there, Approaching t t' cs home there left (p.join piece) := by
  obtain ⟨-, q, there, hq, hwalk, hahead⟩ := hp.ahead.cons
  obtain ⟨-, q', there', hq', hwalk', hahead'⟩ := hp.ahead'.cons
  cases FileTree.stepOf_inj hstep hq
  cases FileTree.stepOf_inj hstep hq'
  have heq : there' = there :=
    (FileTree.walk_eq_follow hwalk').trans (FileTree.walk_eq_follow hwalk).symm
  subst heq
  have hjoin := hne.imp_right And.left
  refine ⟨there', ?_, ?_, hahead, hahead', ?_, .inl (FileTree.text_join_ne_empty hslash hjoin)⟩
  · rw [FileTree.reach_join hslash hjoin, hp.reach]
    exact hwalk
  · rw [FileTree.reach_join hslash hjoin, hp.reach']
    exact hwalk'
  · rw [FileTree.components_join hslash hne, hstep, ← hp.components, List.append_assoc]
    rfl

end Approaching

/-- Walks with these steps in the two trees come to what is related, if they lead through
what is left of the components, to steps of which `last` holds. -/
def RelatedInto (R : List Path → List Path → Prop) (last : List Step → Bool) (t t' : FileTree)
    (cs : List Component) (home : List String) (steps : List Step) : Prop :=
  ∀ here left p, Approaching t t' cs home here left p → leadsThrough last steps left = true →
    R (walkSteps t steps p) (walkSteps t' steps p)

section

variable {R : List Path → List Path → Prop} {last : List Step → Bool} {rest : List Step}
  {here : List String} {c : Component} {left : List Component} {p : Path}

theorem RelatedInto.literal (hnil : R [] []) (hrest : RelatedInto R last t t' cs home rest)
    {name : String} (hname : '/' ∉ name.toList)
    (hp : Approaching t t' cs home here (c :: left) p)
    (hleads : leadsThrough last (.literal name :: rest) (c :: left) = true) :
    R (walkSteps t (.literal name :: rest) p) (walkSteps t' (.literal name :: rest) p) := by
  rw [leadsThrough, Step.way?] at hleads
  by_cases hgoes : p.text ≠ "" ∨ name ≠ "" ∧ name ≠ "." ∧ name ≠ ".."
  · rw [walkSteps_literal (hgoes.imp_right And.right),
      walkSteps_literal (hgoes.imp_right And.right)]
    have hjoin := FileTree.text_join_ne_empty hname (hgoes.imp_right And.left)
    cases hway : stepOf name with
    | none =>
        rw [hway] at hleads
        have hne : p.text ≠ "" := by
          refine hgoes.resolve_right fun hcounts => ?_
          exact (FileTree.idle_of_stepOf hway).elim hcounts.1 hcounts.2.1
        have hidle := hp.idle hname hne hway
        rw [if_pos (hidle.exists? hjoin).1, if_pos (hidle.exists? hjoin).2]
        exact hrest here _ _ hidle hleads
    | some way =>
        rw [hway] at hleads
        dsimp only at hleads
        rw [Bool.and_eq_true, decide_eq_true_eq] at hleads
        obtain ⟨rfl, hleads⟩ := hleads
        obtain ⟨there, hthere⟩ := hp.next hname (hgoes.imp_right fun h => ⟨h.1, h.2.1⟩) hway
        rw [if_pos (hthere.exists? hjoin).1, if_pos (hthere.exists? hjoin).2]
        exact hrest there left _ hthere hleads
  · -- at its start a relative search only goes to a name
    rw [not_or, not_not] at hgoes
    obtain ⟨text⟩ := p
    cases hgoes.1
    have hdots : ∀ n, Step.literal name = .literal n → n = "" ∨ n = "." ∨ n = ".." := by
      intro n hn
      cases hn
      by_contra hcounts
      rw [not_or, not_or] at hcounts
      exact hgoes.2 hcounts
    rw [walkSteps_empty hdots, walkSteps_empty hdots]
    exact hnil

theorem RelatedInto.wild (hnil : R [] []) (hrest : RelatedInto R last t t' cs home rest)
    (hsound : t.Sound) (hsound' : t'.Sound) {ts : List Token}
    (hp : Approaching t t' cs home here (c :: left) p)
    (hleads : leadsThrough last (.wild ts :: rest) (c :: left) = true) :
    R (walkSteps t (.wild ts :: rest) p) (walkSteps t' (.wild ts :: rest) p) := by
  by_cases hne : p.text = ""
  · obtain ⟨text⟩ := p
    cases hne
    exact hnil
  · rw [leadsThrough, Step.way?] at hleads
    cases honly : only? ts with
    | none =>
        rw [honly] at hleads
        cases hleads
    | some name =>
        rw [honly] at hleads
        dsimp only [Option.map_some] at hleads
        rw [Bool.and_eq_true, decide_eq_true_eq] at hleads
        obtain ⟨rfl, hleads⟩ := hleads
        obtain ⟨es, child, hes, hchild⟩ := hp.ahead.entry
        obtain ⟨fs, child', hfs, hchild'⟩ := hp.ahead'.entry
        have hname := hsound.names _ es hes _ hchild
        have hdots := And.intro hname.ne_here hname.ne_parent
        have hstep := FileTree.stepOf_of_name hname.ne_empty hname.ne_here hname.ne_parent
        rw [← String.toList_ofList (l := name)] at honly
        rw [walkSteps_wild_only (FileTree.find_of_reach hne hp.reach hes)
            (hsound.distinct _ es hes) hchild hdots honly,
          walkSteps_wild_only (FileTree.find_of_reach hne hp.reach' hfs)
            (hsound'.distinct _ fs hfs) hchild' hdots honly]
        obtain ⟨there, hthere⟩ := hp.next hname.noSlash (.inl hne) hstep
        exact hrest there left _ hthere hleads

/-- It is enough that the walks are related that start in the directory. -/
theorem relatedInto (hnil : R [] []) (hsound : t.Sound) (hsound' : t'.Sound)
    (hlast : ∀ steps q, ArePieces steps → Shared t t' cs (home ++ []) q → last steps = true →
      R (walkSteps t steps q) (walkSteps t' steps q))
    {steps : List Step} (hpieces : ArePieces steps) : RelatedInto R last t t' cs home steps := by
  induction steps with
  | nil =>
      intro here left p hp hleads
      cases left with
      | nil => exact hlast [] p hpieces hp.shared hleads
      | cons c left =>
          rw [leadsThrough] at hleads
          cases hleads
  | cons s rest ih =>
      intro here left p hp hleads
      cases left with
      | nil =>
          rw [leadsThrough] at hleads
          exact hlast _ p hpieces hp.shared hleads
      | cons c left =>
          cases s with
          | literal name =>
              exact (ih hpieces.tail).literal hnil (hpieces name List.mem_cons_self) hp hleads
          | wild ts => exact (ih hpieces.tail).wild hnil hsound hsound' hp hleads
          | deep =>
              rw [leadsThrough, Step.way?] at hleads
              cases hleads

/-- What steps lead through is not the front of a path. -/
theorem ne_front_of_leadsThrough {steps : List Step}
    (h : leadsThrough last steps (c :: left) = true) : c ≠ .root ∧ c ≠ .here := by
  induction steps with
  | nil =>
      rw [leadsThrough] at h
      cases h
  | cons s rest ih =>
      rw [leadsThrough] at h
      split at h
      · exact ih h
      · next way hway =>
          rw [Bool.and_eq_true, decide_eq_true_eq] at h
          obtain ⟨rfl, -⟩ := h
          cases s with
          | literal name =>
              rw [Step.way?, Option.some.injEq] at hway
              rcases FileTree.stepOf_eq_some hway with ⟨-, rfl⟩ | ⟨-, rfl⟩ <;> simp
          | wild ts =>
              obtain ⟨cs, -, hcs⟩ := Option.map_eq_some_iff.1 hway
              cases hcs
              simp
          | deep => cases hway
      · cases h

end

end

end Glob

end SiteMacros
