import SiteMacros.Proofs.ComponentMatches
import SiteMacros.Proofs.SearchBases

/-!
# The files that a walk finds

A walk with the steps of a pattern is at a node below the directory that it started from, and
what it finds from there are nodes below that one. So the files in the list that it comes to
can be told by their names, seen from where the walk is, and be counted: each is there as often
as there are ways to match its names with the steps that are left (`Finds`, `findsWays`).

There is one rule for each thing that a walk does: it puts lists together, it goes on from an
entry of a directory or from all of them in order, or it visits all nodes below (`Finds.append`,
`Finds.child`, `Finds.inOrder`, `Finds.below`). Steps that lead to `.` or `..` are the
exception. They lead to files that are not found by their names, and so there must be none
in front of another step (`strays`).
-/

namespace SiteMacros

open FileTree (stepOf)

namespace Glob

/-- Does the step lead to `.` or `..`? -/
def Step.leadsOut : Step → Bool
  | .literal name => name = "." || name = ".."
  | .wild ts => !(dotSteps ts).isEmpty
  | .deep => false

/-- Is there a step that leads to `.` or `..` in front of another one? Right after `**` there
is none, since only names are looked at there. -/
def strays : List Step → Bool
  | [] => false
  | .deep :: .deep :: rest => strays (.deep :: rest)
  | .deep :: _ :: rest => strays rest
  | s :: rest => (!rest.isEmpty && s.leadsOut) || strays rest

end Glob

namespace FileTree

/-- The path leads from the address `home` through the names `ns`, and its components are `cs`
and these names. -/
structure Trodden (t : FileTree) (cs : List Component) (home ns : List String) (p : Path) :
    Prop where
  text_ne : p.text ≠ ""
  reach : t.reach p = .ok (home ++ ns)
  components : p.components = cs ++ ns.map .name

/-- Is the path that of a file, with these components? -/
def isFileAt (t : FileTree) (cs : List Component) (p : Path) : Bool :=
  t.isFile p && p.components == cs

variable {t : FileTree} {cs : List Component} {home ns : List String} {p : Path}

namespace Trodden

theorem exists_node (hp : t.Trodden cs home ns p) :
    ∃ node, t.get? (home ++ ns) = some node ∧ t.find p = .ok node := by
  obtain ⟨node, hnode⟩ := exists_of_reach hp.reach
  exact ⟨node, hnode, find_of_reach hp.text_ne hp.reach hnode⟩

theorem isFile_eq (hp : t.Trodden cs home ns p) :
    t.isFile p = (t.textAt? (home ++ ns)).isSome := by
  obtain ⟨node, hnode, hfind⟩ := hp.exists_node
  rw [isFile, hfind, textAt?, hnode]
  cases node <;> rfl

/-- A name that is there is one step further. -/
theorem join_name (hp : t.Trodden cs home ns p) {n : String} (hn : Path.IsName n)
    {node : FileTree} (hnode : t.get? (home ++ (ns ++ [n])) = some node) :
    t.Trodden cs home (ns ++ [n]) (p.join n) := by
  rw [← List.append_assoc] at hnode
  obtain ⟨es, hes⟩ := exists_dir_of_get?_append (List.cons_ne_nil n []) hnode
  refine ⟨text_join_ne_empty hn.noSlash (.inl hp.text_ne), ?_, ?_⟩
  · rw [reach_join hn.noSlash (.inl hp.text_ne), hp.reach]
    show t.walk (home ++ ns) [n] = _
    rw [walk_name hes hn.ne_empty hn.ne_here hn.ne_parent, hnode, Option.isSome_some, if_pos rfl,
      List.append_assoc]
  · rw [components_join hn.noSlash (.inl hp.text_ne), hp.components,
      stepOf_of_name hn.ne_empty hn.ne_here hn.ne_parent, List.map_append, List.append_assoc]
    rfl

/-- An empty piece stays in a directory. -/
theorem join_empty (hp : t.Trodden cs home ns p) {es : List (String × FileTree)}
    (hes : t.get? (home ++ ns) = some (.dir es)) : t.Trodden cs home ns (p.join "") := by
  have hslash : '/' ∉ "".toList := by decide
  refine ⟨text_join_ne_empty hslash (.inl hp.text_ne), ?_, ?_⟩
  · rw [reach_join hslash (.inl hp.text_ne), hp.reach]
    exact walk_idle hes (.inl rfl)
  · rw [components_join hslash (.inl hp.text_ne), hp.components]
    exact List.append_nil _

end Trodden

/-- What is below a file is nothing. -/
theorem eq_nil_of_textAt?_append {ms : List String} {text : String}
    (hfile : t.get? (home ++ ns) = some (.file text))
    (h : (t.textAt? (home ++ (ns ++ ms))).isSome = true) : ms = [] := by
  by_contra hms
  obtain ⟨found, hfound⟩ := Option.isSome_iff_exists.1 h
  rw [textAt?_eq_some, ← List.append_assoc] at hfound
  obtain ⟨es, hes⟩ := exists_dir_of_get?_append hms hfound
  rw [hfile] at hes
  cases hes

end FileTree

namespace Glob

open FileTree (Trodden isFileAt)

variable {t : FileTree} {cs : List Component} {home ns : List String} {p : Path}

/-- What `count` comes to at the first name and those behind it. -/
def atFirst (count : String → List String → Nat) : List String → Nat
  | [] => 0
  | n :: ns => count n ns

/-- The files in the list are below the names `ns`, and of the files there the one at `ms` is in
the list `count ms` times. -/
structure Finds (t : FileTree) (cs : List Component) (home ns : List String)
    (count : List String → Nat) (xs : List Path) : Prop where
  only : ∀ q ∈ xs, t.isFile q = true → ∃ ms, t.Trodden cs home (ns ++ ms) q
  times : ∀ ms, (t.textAt? (home ++ (ns ++ ms))).isSome = true →
    xs.countP (t.isFileAt (cs ++ (ns ++ ms).map .name)) = count ms

namespace Finds

variable {count count' : List String → Nat} {xs ys : List Path}

theorem congr (h : Finds t cs home ns count xs)
    (heq : ∀ ms, (t.textAt? (home ++ (ns ++ ms))).isSome = true → count ms = count' ms) :
    Finds t cs home ns count' xs where
  only := h.only
  times ms hms := (h.times ms hms).trans (heq ms hms)

theorem of_no_file (h : ∀ q ∈ xs, t.isFile q = false) : Finds t cs home ns (fun _ => 0) xs where
  only q hq hfile := absurd hfile (Bool.eq_false_iff.1 (h q hq))
  times ms _ := List.countP_eq_zero.2 fun q hq => by
    rw [isFileAt, h q hq, Bool.false_and]
    exact Bool.false_ne_true

theorem append (h : Finds t cs home ns count xs) (h' : Finds t cs home ns count' ys) :
    Finds t cs home ns (fun ms => count ms + count' ms) (xs ++ ys) where
  only q hq hfile := (List.mem_append.1 hq).elim (h.only q · hfile) (h'.only q · hfile)
  times ms hms := by rw [List.countP_append, h.times ms hms, h'.times ms hms]

/-- The path is that of a file, and of one below the name. -/
theorem exists_of_isFileAt {n : String} (h : Finds t cs home (ns ++ [n]) count xs) {q : Path}
    (hq : q ∈ xs) {ms : List String}
    (hfile : t.isFileAt (cs ++ (ns ++ ms).map .name) q = true) : ∃ ks, ms = n :: ks := by
  rw [isFileAt, Bool.and_eq_true, beq_iff_eq] at hfile
  obtain ⟨ks, hks⟩ := h.only q hq hfile.1
  refine ⟨ks, ?_⟩
  have hnames := hks.components.symm.trans hfile.2
  rw [List.append_assoc] at hnames
  have hsame := Path.map_name_inj (List.append_cancel_left hnames)
  exact (List.append_cancel_left hsame).symm

/-- What is found below entries with different names. -/
theorem inOrder {count : String → List String → Nat} {found : List (String × List Path)}
    (hdistinct : (found.map (·.1)).Nodup)
    (hfound : ∀ x ∈ found, Finds t cs home (ns ++ [x.1]) (count x.1) x.2)
    (hother : ∀ n ms, (t.textAt? (home ++ (ns ++ n :: ms))).isSome = true →
      n ∉ found.map (·.1) → count n ms = 0) :
    Finds t cs home ns (atFirst count) (Glob.inOrder found) := by
  have hperm : (Glob.inOrder found).Perm (found.flatMap (·.2)) :=
    (sorted_perm _ found).flatMap_right _
  constructor
  case only =>
    intro q hq hfile
    obtain ⟨x, hx, hq⟩ := List.mem_flatMap.1 (hperm.mem_iff.1 hq)
    obtain ⟨ms, hms⟩ := (hfound x hx).only q hq hfile
    rw [List.append_assoc] at hms
    exact ⟨_, hms⟩
  case times =>
    intro ms hms
    rw [hperm.countP_eq]
    -- what is below one entry is at no other
    have hnone (es : List (String × List Path)) (hes : es ⊆ found)
        (hhead : ∀ x ∈ es, ∀ ks, ms ≠ x.1 :: ks) :
        (es.flatMap (·.2)).countP (t.isFileAt (cs ++ (ns ++ ms).map .name)) = 0 := by
      refine List.countP_eq_zero.2 fun q hq hfile => ?_
      obtain ⟨x, hx, hq⟩ := List.mem_flatMap.1 hq
      obtain ⟨ks, hks⟩ := (hfound x (hes hx)).exists_of_isFileAt hq hfile
      exact hhead x hx ks hks
    cases ms with
    | nil => exact hnone found (List.Subset.refl _) fun _ _ _ => nofun
    | cons n ms =>
        show _ = count n ms
        by_cases hn : n ∈ found.map (·.1)
        · obtain ⟨⟨m, xs⟩, hx, rfl⟩ := List.mem_map.1 hn
          have hone := (hfound _ hx).times ms (by rwa [List.append_assoc])
          rw [List.append_assoc] at hone
          obtain ⟨before, after, rfl⟩ := List.append_of_mem hx
          rw [List.map_append, List.map_cons, List.nodup_append, List.nodup_cons] at hdistinct
          obtain ⟨-, ⟨hafter, -⟩, hbefore⟩ := hdistinct
          have hahead := hnone before (List.subset_append_left _ _) fun x hx ks heq =>
            hbefore _ (List.mem_map_of_mem hx) _ List.mem_cons_self (List.cons.inj heq).1.symm
          have hbehind := hnone after
            (fun x hx => List.mem_append_right _ (List.mem_cons_of_mem _ hx)) fun x hx ks heq =>
              hafter (List.mem_map.2 ⟨x, hx, (List.cons.inj heq).1.symm⟩)
          rw [List.flatMap_append, List.flatMap_cons, List.countP_append, List.countP_append,
            hahead, hbehind, Nat.zero_add, Nat.add_zero]
          exact hone
        · rw [hother n ms hms hn]
          refine hnone found (List.Subset.refl _) fun x hx ks heq => hn ?_
          rw [(List.cons.inj heq).1]
          exact List.mem_map_of_mem hx

/-- What is found below one entry. -/
theorem child {n : String} (h : Finds t cs home (ns ++ [n]) count xs) :
    Finds t cs home ns (atFirst fun m ms => if m = n then count ms else 0) xs := by
  have hone : Glob.inOrder [(n, xs)] = xs := List.append_nil xs
  rw [← hone]
  refine .inOrder (List.nodup_singleton n) (fun x hx => ?_) fun m ms _ hm => if_neg fun heq => hm ?_
  · rw [List.mem_singleton.1 hx]
    exact h.congr fun ms _ => (if_pos rfl).symm
  · rw [heq]
    exact List.mem_singleton_self n

end Finds

/-! ## Walks -/

theorem Trodden.entry (hsound : t.Sound) (hp : t.Trodden cs home ns p)
    {es : List (String × FileTree)} (hes : t.get? (home ++ ns) = some (.dir es)) {n : String}
    {c : FileTree} (hc : (n, c) ∈ es) :
    t.Trodden cs home (ns ++ [n]) (p.join n) ∧ t.get? (home ++ (ns ++ [n])) = some c := by
  have hchild := FileTree.get?_entry hes (hsound.distinct _ es hes) hc
  rw [List.append_assoc] at hchild
  exact ⟨hp.join_name (hsound.names _ es hes _ hc) hchild, hchild⟩

/-- What is below a directory is below one of its entries. -/
theorem exists_entry {es : List (String × FileTree)}
    (hes : t.get? (home ++ ns) = some (.dir es)) {n : String} {ms : List String}
    (h : (t.textAt? (home ++ (ns ++ n :: ms))).isSome = true) : ∃ c, (n, c) ∈ es := by
  obtain ⟨text, htext⟩ := Option.isSome_iff_exists.1 h
  rw [FileTree.textAt?_eq_some, ← List.append_assoc, FileTree.get?_append, hes, Option.bind_some,
    FileTree.get?, FileTree.child?_dir] at htext
  cases hlookup : es.lookup n with
  | none =>
      rw [hlookup] at htext
      cases htext
  | some c => exact ⟨c, FileTree.mem_of_lookup hlookup⟩

theorem fst_mem_entriesFound {g : String → FileTree → Option (List Path)}
    {es : List (String × FileTree)} {n : String} {c : FileTree} (hc : (n, c) ∈ es)
    {xs : List Path} (hxs : g n c = some xs) : n ∈ (entriesFound g es).map (·.1) :=
  List.mem_map.2 ⟨(n, xs), mem_entriesFound.2 ⟨c, hc, hxs⟩, rfl⟩

/-- What is found by a visit to all nodes below a node. -/
theorem Finds.below (hsound : t.Sound) {visit : String → Path → List Path}
    {count : String → List String → Nat}
    (hvisit : ∀ ns n q, t.Trodden cs home (ns ++ [n]) q →
      Finds t cs home (ns ++ [n]) (count n) (visit n q)) (node : FileTree) :
    ∀ ns p, t.Trodden cs home ns p → t.get? (home ++ ns) = some node →
      Finds t cs home ns (waysBelow count) (Glob.below visit p node) := by
  induction node using FileTree.inductOn with
  | leaf text =>
      intro ns p hp hnode
      rw [Glob.below]
      have hnil : ∀ q ∈ ([] : List Path), t.isFile q = false := List.forall_mem_nil _
      refine (Finds.of_no_file hnil).congr fun ms hms => ?_
      rw [FileTree.eq_nil_of_textAt?_append hnode hms]
      rfl
  | node es ih =>
      intro ns p hp hnode
      have hwhole : Finds t cs home ns (atFirst fun n ms => count n ms + waysBelow count ms)
          (Glob.below visit p (.dir es)) := by
        rw [Glob.below, belowEntries_eq]
        refine .inOrder (entriesFound_nodup _ (hsound.distinct _ es hnode)) (fun x hx => ?_)
          fun n ms hms hn => absurd ?_ hn
        · obtain ⟨c, hc, hx⟩ := mem_entriesFound.1 hx
          obtain ⟨hjoin, hchild⟩ := Trodden.entry hsound hp hnode hc
          rw [← Option.some.inj hx]
          exact (hvisit ns x.1 _ hjoin).append (ih (x.1, c) hc _ _ hjoin hchild)
        · obtain ⟨c, hc⟩ := exists_entry hnode hms
          exact fst_mem_entriesFound hc rfl
      exact hwhole.congr fun ms _ => by cases ms <;> rfl

/-- Walks with these steps find the files that the steps match, each as often as they do. -/
def FindsWays (t : FileTree) (cs : List Component) (home : List String) (ss : List Step) : Prop :=
  ∀ ns p, t.Trodden cs home ns p → Finds t cs home ns (ways ss) (walkSteps t (collapse ss) p)

section

variable {ss rest : List Step}

theorem findsWays_nil : FindsWays t cs home [] := by
  intro ns p hp
  rw [collapse, walkSteps]
  constructor
  case only =>
    intro q hq _
    rw [List.mem_singleton.1 hq]
    exact ⟨[], by rwa [List.append_nil]⟩
  case times =>
    intro ms hms
    rw [List.countP_singleton, isFileAt, hp.components]
    by_cases hnil : ms = []
    · subst hnil
      rw [List.append_nil] at hms ⊢
      rw [hp.isFile_eq, hms, beq_self_eq_true]
      rfl
    · have hne : (cs ++ ns.map Component.name == cs ++ (ns ++ ms).map .name) = false := by
        rw [beq_eq_false_iff_ne]
        intro heq
        have hsame := Path.map_name_inj (List.append_cancel_left heq)
        exact hnil (List.self_eq_append_right.1 hsame)
      rw [hne, Bool.and_false, ways, if_neg hnil]
      rfl

/-- Nothing is found where no file is asked for. -/
theorem Finds.nothing {count : List String → Nat}
    (h : ∀ ms, (t.textAt? (home ++ (ns ++ ms))).isSome = true → count ms = 0) :
    Finds t cs home ns count [] :=
  (Finds.of_no_file (List.forall_mem_nil _)).congr fun ms hms => (h ms hms).symm

/-- A step that is no `**` asks for nothing below a file. -/
theorem Finds.nothing_of_file {s : Step} (hs : s ≠ .deep) {text : String}
    (hfile : t.get? (home ++ ns) = some (.file text)) : Finds t cs home ns (ways (s :: rest)) [] :=
  .nothing fun ms hms => by
    rw [FileTree.eq_nil_of_textAt?_append hfile hms, ways_cons_nil hs]

/-- Steps that look at a name take it from the ways of those behind them. -/
theorem ways_eq_atFirst {s : Step} (hs : s ≠ .deep) (hidle : s ≠ .literal "") (ms : List String) :
    ways (s :: rest) ms = atFirst (fun n ms => if s.admits n then ways rest ms else 0) ms := by
  cases ms with
  | nil => exact ways_cons_nil hs rest
  | cons n ms => exact ways_name hs hidle

section

variable {es : List (String × FileTree)}

theorem isName_of_file (hsound : t.Sound) (hes : t.get? (home ++ ns) = some (.dir es)) {n : String}
    {ms : List String} (h : (t.textAt? (home ++ (ns ++ n :: ms))).isSome = true) :
    Path.IsName n := by
  obtain ⟨c, hc⟩ := exists_entry hes h
  exact hsound.names _ es hes _ hc

/-- An empty component stays in the directory. -/
theorem FindsWays.empty (hsound : t.Sound) (hrest : FindsWays t cs home rest)
    (hp : t.Trodden cs home ns p) (hes : t.get? (home ++ ns) = some (.dir es)) :
    Finds t cs home ns (ways (.literal "" :: rest))
      (walkSteps t (.literal "" :: collapse rest) p) := by
  have hjoin := hp.join_empty hes
  rw [walkSteps_literal (.inl hp.text_ne),
    if_pos ((FileTree.exists?_iff hjoin.text_ne).2 ⟨_, hjoin.reach⟩)]
  refine (hrest ns _ hjoin).congr fun ms hms => ?_
  cases ms with
  | nil =>
      rw [List.append_nil, FileTree.textAt?_eq_none_of_dir hes] at hms
      cases hms
  | cons n ms => exact (ways_idle (isName_of_file hsound hes hms).ne_empty).symm

/-- What `.` and `..` lead to is no file. -/
theorem finds_dots (hsound : t.Sound) (hp : t.Trodden cs home ns p)
    (hes : t.get? (home ++ ns) = some (.dir es)) {name : String}
    (hname : name = ".." ∨ name = ".") :
    Finds t cs home ns (ways [.literal name]) (walkSteps t [.literal name] p) := by
  have hs := Step.literal_ne_deep name
  have hidle : Step.literal name ≠ .literal "" := by
    rcases hname with rfl | rfl <;> decide
  have hfound : ∀ q ∈ walkSteps t [.literal name] p, t.isFile q = false := by
    intro q hq
    rw [walkSteps_literal (.inl hp.text_ne)] at hq
    split at hq
    · rw [walkSteps, List.mem_singleton] at hq
      rw [hq]
      exact FileTree.isFile_join_dots hp.text_ne hp.reach hes hname
    · cases hq
  refine (Finds.of_no_file hfound).congr fun ms hms => ?_
  rw [ways_eq_atFirst hs hidle]
  cases ms with
  | nil => rfl
  | cons n ms =>
      have hn := isName_of_file hsound hes hms
      have hother : ¬ (Step.literal name).admits n = true := by
        rw [Step.admits, decide_eq_true_eq]
        rintro rfl
        exact hname.elim hn.ne_parent hn.ne_here
      exact (if_neg hother).symm

/-- A name leads to the entry that has it. -/
theorem FindsWays.name (hsound : t.Sound) (hrest : FindsWays t cs home rest)
    (hp : t.Trodden cs home ns p) (hes : t.get? (home ++ ns) = some (.dir es)) {name : String}
    (hslash : '/' ∉ name.toList) (hcounts : name ≠ "" ∧ name ≠ "." ∧ name ≠ "..") :
    Finds t cs home ns (ways (.literal name :: rest))
      (walkSteps t (.literal name :: collapse rest) p) := by
  have hs := Step.literal_ne_deep name
  have hidle : Step.literal name ≠ .literal "" := fun heq => hcounts.1 (Step.literal.inj heq)
  have hadmits : ∀ n, (Step.literal name).admits n = true ↔ n = name := fun n => by
    rw [Step.admits, decide_eq_true_eq, eq_comm]
  rw [walkSteps_literal (.inl hp.text_ne),
    exists?_join_name hp.text_ne hslash hcounts (FileTree.find_of_reach hp.text_ne hp.reach hes)]
  cases hlookup : es.lookup name with
  | none =>
      rw [Option.isSome_none, if_neg Bool.false_ne_true]
      refine .nothing fun ms hms => ?_
      rw [ways_eq_atFirst hs hidle]
      cases ms with
      | nil => rfl
      | cons n ms =>
          refine if_neg fun hn => ?_
          obtain ⟨c, hc⟩ := exists_entry hes hms
          rw [(hadmits n).1 hn] at hc
          rw [FileTree.lookup_of_mem (hsound.distinct _ es hes) hc] at hlookup
          cases hlookup
  | some c =>
      rw [Option.isSome_some, if_pos rfl]
      obtain ⟨hjoin, -⟩ := Trodden.entry hsound hp hes (FileTree.mem_of_lookup hlookup)
      refine (hrest _ _ hjoin).child.congr fun ms _ => ?_
      rw [ways_eq_atFirst hs hidle]
      simp only [hadmits]

end

theorem FindsWays.literal (hsound : t.Sound) (hrest : FindsWays t cs home rest) {name : String}
    (hslash : '/' ∉ name.toList) (hstrays : rest = [] ∨ (Step.literal name).leadsOut = false) :
    FindsWays t cs home (.literal name :: rest) := by
  intro ns p hp
  have hs := Step.literal_ne_deep name
  rw [collapse_cons hs]
  obtain ⟨node, hnode, hfind⟩ := hp.exists_node
  cases node with
  | file text =>
      have hnone := exists?_join_of_not_dir hp.text_ne hslash fun es hes => by
        rw [hfind] at hes
        cases hes
      rw [walkSteps_literal (.inl hp.text_ne), hnone, if_neg Bool.false_ne_true]
      exact .nothing_of_file hs hnode
  | dir es =>
      by_cases hempty : name = ""
      · rw [hempty]
        exact hrest.empty hsound hp hnode
      · by_cases hdots : name = ".." ∨ name = "."
        · have hnil : rest = [] := hstrays.resolve_right fun hout => by
            rcases hdots with rfl | rfl <;> cases hout
          rw [hnil]
          exact finds_dots hsound hp hnode hdots
        · rw [not_or] at hdots
          exact hrest.name hsound hp hnode hslash ⟨hempty, hdots.2, hdots.1⟩

theorem FindsWays.wild (hsound : t.Sound) (hrest : FindsWays t cs home rest) {ts : List Token}
    (hstrays : rest = [] ∨ (Step.wild ts).leadsOut = false) :
    FindsWays t cs home (.wild ts :: rest) := by
  intro ns p hp
  have hs := Step.wild_ne_deep ts
  have hidle : Step.wild ts ≠ .literal "" := nofun
  rw [collapse_cons hs]
  obtain ⟨node, hnode, hfind⟩ := hp.exists_node
  cases node with
  | file text =>
      rw [walkSteps, hfind]
      exact .nothing_of_file hs hnode
  | dir es =>
      rw [walkSteps_wild hfind]
      have hdots : ∀ q ∈ (dotSteps ts).flatMap fun s => walkSteps t (collapse rest) (p.join s),
          t.isFile q = false := by
        intro q hq
        obtain ⟨s, hs, hq⟩ := List.mem_flatMap.1 hq
        rcases hstrays with hnil | hout
        · rw [hnil, collapse, walkSteps, List.mem_singleton] at hq
          rw [hq]
          exact FileTree.isFile_join_dots hp.text_ne hp.reach hnode (dotSteps_subset hs)
        · rw [Step.leadsOut, Bool.not_eq_false', List.isEmpty_iff] at hout
          rw [hout] at hs
          cases hs
      have hnames : Finds t cs home ns
          (atFirst fun n ms => if (Step.wild ts).admits n then ways rest ms else 0)
          (inOrder (entriesFound (fun name _ => if matchTokens ts name.toList then
            some (walkSteps t (collapse rest) (p.join name)) else none) es)) := by
        refine .inOrder (entriesFound_nodup _ (hsound.distinct _ es hnode)) (fun x hx => ?_)
          fun n ms hms hn => if_neg fun hadmits => hn ?_
        · obtain ⟨c, hc, hx⟩ := mem_entriesFound.1 hx
          obtain ⟨hjoin, -⟩ := Trodden.entry hsound hp hnode hc
          split at hx
          · next hadmits =>
              rw [← Option.some.inj hx]
              exact (hrest _ _ hjoin).congr fun ms _ => (if_pos hadmits).symm
          · cases hx
        · obtain ⟨c, hc⟩ := exists_entry hnode hms
          exact fst_mem_entriesFound hc (if_pos hadmits)
      refine ((Finds.of_no_file hdots).append hnames).congr fun ms _ => ?_
      rw [ways_eq_atFirst hs hidle, Nat.zero_add]

theorem waysBelow_zero (ms : List String) : waysBelow (fun _ _ => 0) ms = 0 := by
  induction ms with
  | nil => rfl
  | cons n ms ih => rw [waysBelow, ih]

/-- A `**` at the end leads to directories only. -/
theorem findsWays_deep (hsound : t.Sound) : FindsWays t cs home [.deep] := by
  intro ns p hp
  obtain ⟨node, hnode, hfind⟩ := hp.exists_node
  rw [show collapse [.deep] = [.deep] from rfl, walkSteps, hfind]
  have hvisit : ∀ ns n q, t.Trodden cs home (ns ++ [n]) q → Finds t cs home (ns ++ [n])
      (fun _ => 0) (if t.isDir q then [q] else []) := by
    intro ns n q _
    refine .of_no_file fun x hx => ?_
    split at hx
    · next hdir =>
        rw [List.mem_singleton.1 hx, ← Bool.not_eq_true]
        intro hfile
        rw [FileTree.isDir_of_isFile hfile] at hdir
        cases hdir
    · cases hx
  refine (Finds.below hsound hvisit node ns p hp hnode).congr fun ms _ => ?_
  rw [ways, waysBelow_zero]

theorem collapse_deep_cons {next : Step} (h : next ≠ .deep) (rest : List Step) :
    collapse (.deep :: next :: rest) = .deep :: next :: collapse rest := by
  rw [collapse, collapse_cons h]
  intro rest _ heq
  exact h (List.cons.inj heq).1

theorem FindsWays.deep (hsound : t.Sound) (hrest : FindsWays t cs home rest) {next : Step}
    (hnext : next ≠ .deep) : FindsWays t cs home (.deep :: next :: rest) := by
  intro ns p hp
  obtain ⟨node, hnode, hfind⟩ := hp.exists_node
  rw [collapse_deep_cons hnext, walkSteps, hfind]
  have hvisit : ∀ ns n q, t.Trodden cs home (ns ++ [n]) q → Finds t cs home (ns ++ [n])
      (fun ms => if next.admits n then ways rest ms else 0)
      (if next.admits n then walkSteps t (collapse rest) q else []) := by
    intro ns n q hq
    split
    · exact hrest _ q hq
    · exact .of_no_file (List.forall_mem_nil _)
  refine (Finds.below hsound hvisit node ns p hp hnode).congr fun ms _ => ?_
  rw [ways_deep_cons hnext]

theorem strays_cons {s : Step} (hs : s ≠ .deep) (h : strays (s :: rest) = false) :
    (rest = [] ∨ s.leadsOut = false) ∧ strays rest = false := by
  have hcons : strays (s :: rest) = ((!rest.isEmpty && s.leadsOut) || strays rest) := by
    cases s with
    | deep => exact absurd rfl hs
    | literal name => rw [strays] <;> simp
    | wild ts => rw [strays] <;> simp
  rw [hcons, Bool.or_eq_false_iff, Bool.and_eq_false_iff, Bool.not_eq_false',
    List.isEmpty_iff] at h
  exact h

theorem strays_deep_cons {next : Step} (h : next ≠ .deep) :
    strays (.deep :: next :: rest) = strays rest := by
  rw [strays]
  exact h

/-- A walk finds the files that its steps match, as often as they do. -/
theorem findsWays (hsound : t.Sound) :
    (ss : List Step) → ArePieces (collapse ss) → strays ss = false → FindsWays t cs home ss
  | [], _, _ => findsWays_nil
  | [.deep], _, _ => findsWays_deep hsound
  | .deep :: .deep :: rest, hpieces, hstrays => by
      rw [collapse] at hpieces
      rw [strays] at hstrays
      intro ns p hp
      rw [collapse]
      exact (findsWays hsound (.deep :: rest) hpieces hstrays ns p hp).congr fun ms _ => by
        rw [ways]
  | .deep :: .literal name :: rest, hpieces, hstrays => by
      have hnext := Step.literal_ne_deep name
      rw [collapse_deep_cons hnext] at hpieces
      rw [strays_deep_cons hnext] at hstrays
      exact (findsWays hsound rest hpieces.tail.tail hstrays).deep hsound hnext
  | .deep :: .wild ts :: rest, hpieces, hstrays => by
      have hnext := Step.wild_ne_deep ts
      rw [collapse_deep_cons hnext] at hpieces
      rw [strays_deep_cons hnext] at hstrays
      exact (findsWays hsound rest hpieces.tail.tail hstrays).deep hsound hnext
  | .literal name :: rest, hpieces, hstrays => by
      have hs := Step.literal_ne_deep name
      rw [collapse_cons hs] at hpieces
      obtain ⟨hlast, hstrays⟩ := strays_cons hs hstrays
      exact (findsWays hsound rest hpieces.tail hstrays).literal hsound
        (hpieces name List.mem_cons_self) hlast
  | .wild ts :: rest, hpieces, hstrays => by
      have hs := Step.wild_ne_deep ts
      rw [collapse_cons hs] at hpieces
      obtain ⟨hlast, hstrays⟩ := strays_cons hs hstrays
      exact (findsWays hsound rest hpieces.tail hstrays).wild hsound hlast

end

end Glob

end SiteMacros
