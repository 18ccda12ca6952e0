import SiteMacros.Proofs.BatchOrder
import SiteMacros.Proofs.FailedLoads
import SiteMacros.Proofs.Presence

/-!
# What is told as removed stays away

Where a path leads to nothing any more, a batch that is told so leaves neither a route nor a
module at or below it, nor anything in its place in the output tree (`applyBatch_removes`).
All of that is taken away when the change is noted. What follows adds to the registry, the
cache and the output tree again, but nothing of it belongs to the path: a page is registered
for a directory that is there, a module is cached if it is a file, and a text is written to
the place of a file. None of these is below a path that leads to nothing.

Paths are compared by components, and a file system follows them step by step. The two
agree on names. So the path must lead to nothing in any spelling (`FileTree.Lacks`), and the
paths of source files and the root of the output tree are written without `..` (`Straight`).
-/

namespace SiteMacros

namespace FileTree

variable {t : FileTree} {p q : Path} {ms ns : List String}

/-- Nothing is found by the path, in whatever spelling. -/
def Lacks (t : FileTree) (p : Path) : Prop :=
  ∀ q : Path, q.components = p.components → t.exists? q = false

/-- Nothing is found below a path by which nothing is found. -/
theorem Lacks.below (h : t.Lacks p) (hp : p.components ≠ []) (hq : t.exists? q = true) :
    q.startsWith p = false := by
  refine Bool.eq_false_iff.2 fun hbelow => ?_
  rw [Path.startsWith, List.isPrefixOf_iff_prefix] at hbelow
  obtain ⟨q', hsame, hq'⟩ := exists?_of_components_begin hq hbelow hp
  rw [h q' hsame] at hq'
  cases hq'

theorem lacks_of_passesThrough (hp : p.isAbsolute = true) (hway : p.PassesThrough ns)
    (h : t.bareAt? ns = none) : t.Lacks p := by
  refine fun q hq => Bool.eq_false_iff.2 fun hthere => ?_
  obtain ⟨cs, hcs⟩ := Path.isAbsolute_iff_components.1 hp
  have habs : q.isAbsolute = true := Path.isAbsolute_iff_components.2 ⟨cs, hq.trans hcs⟩
  rw [Path.PassesThrough, ← hq] at hway
  obtain ⟨node, hnode⟩ := exists_of_passesThrough habs hthere hway
  rw [h] at hnode
  cases hnode

/-- Nothing is found by a path without components, which is the empty one. -/
theorem exists?_eq_false_of_nil (hp : p.components = []) : t.exists? p = false := by
  have htext : p.text.toList = [] := by
    have habs : p.isAbsolute = false := Bool.eq_false_iff.2 fun habs => by
      rw [Path.components_absolute habs] at hp
      cases hp
    obtain ⟨q, qs, hq⟩ := List.exists_cons_of_ne_nil (Text.pieces_ne_nil '/' p.text.toList)
    rw [Path.components, habs, if_neg Bool.false_ne_true, Path.pieces_relative habs hq,
      List.filterMap_eq_nil_iff] at hp
    have hfirst := hp _ List.mem_cons_self
    have hempty : q = [] := by
      rw [Path.first] at hfirst
      split at hfirst
      · cases hfirst
      · next hdot =>
          rw [Path.inner_snd_none, Path.inner_fst, String.ofList_eq_empty_iff] at hfirst
          exact hfirst.resolve_right fun h => hdot (by simpa using congrArg String.toList h)
    have htext : ['/'].intercalate (q :: qs) = p.text.toList := by
      rw [← hq, Text.pieces_eq_splitOn, List.intercalate_splitOn]
    cases qs with
    | nil => rw [← htext, hempty, List.intercalate_singleton]
    | cons r rs =>
        -- a second piece stands behind a slash, with which the path begins
        rw [hempty, List.intercalate_cons_cons] at htext
        rw [Path.isAbsolute, ← htext] at habs
        cases habs
  obtain ⟨text⟩ := p
  rw [String.toList_eq_nil_iff] at htext
  cases htext
  rfl

theorem exists?_of_isFile (h : t.isFile p = true) : t.exists? p = true := by
  rw [isFile] at h
  split at h
  · next text hfind => rw [exists?, hfind]
  · cases h

/-! ## Removals that go through -/

/-- The walk to a node comes there, unless the node is a file that is asked for as a directory. -/
theorem walk_of_node {here pieces : List String} (hup : ".." ∉ pieces) {node : FileTree}
    (hnode : t.get? (here ++ named pieces) = some node) :
    t.walk here pieces = .ok (here ++ named pieces) ∨
      t.walk here pieces = .error .notDirectory := by
  induction pieces generalizing here with
  | nil => exact .inl (congrArg Except.ok (List.append_nil here).symm)
  | cons piece rest ih =>
      rw [List.mem_cons, not_or] at hup
      rw [walk]
      cases hhere : t.get? here with
      | none =>
          rw [get?_append, hhere] at hnode
          cases hnode
      | some node' =>
          cases node' with
          | file text => exact .inr rfl
          | dir es =>
              rw [named_cons] at hnode ⊢
              dsimp only
              split
              · next hidle =>
                  rw [if_pos hidle] at hnode
                  exact ih hup.2 hnode
              · next hcounts =>
                  have hcons := List.append_cons here piece (named rest)
                  rw [if_neg hcounts, hcons] at hnode
                  rw [if_neg (Ne.symm hup.1), hcons]
                  cases hentry : t.get? (here ++ [piece]) with
                  | none =>
                      rw [get?_append, hentry] at hnode
                      cases hnode
                  | some entry => exact ih hup.2 hnode

theorem address_of_node (hp : p.Leads ms) {node : FileTree} (hnode : t.get? ms = some node) :
    t.address p = .ok ms ∨ t.address p = .error .notDirectory := by
  obtain ⟨hup, hnamed, -⟩ := steps_of_leads hp
  have hwalk : t.walk [] (steps p) = .ok ([] ++ named (steps p)) ∨
      t.walk [] (steps p) = .error .notDirectory := walk_of_node hup (by rwa [hnamed])
  rw [address_eq_reach (Path.text_ne_empty hp.isAbsolute), reach]
  rwa [hnamed] at hwalk

/-- A directory stays only if the path does not end in a name, and then its removal fails. -/
theorem removeTree_fails {home : List String} {es : List (String × FileTree)}
    (haddress : t.address p = .ok home) (hes : t.get? home = some (.dir es))
    (hagain : (t.set home empty).address p = .ok home) (hends : endsOnName p = false) :
    (t.removeTree p).2 ≠ .ok () ∧ (t.removeTree p).2 ≠ .error .notFound := by
  rw [removeTree, haddress]
  dsimp only
  rw [hes]
  dsimp only
  rw [hagain]
  rw [endsOnName] at hends
  dsimp only
  cases hlast : lastStep p with
  | none => exact ⟨by simp, by simp⟩
  | some last =>
      obtain ⟨before, name⟩ := last
      rw [hlast] at hends
      simp only [isStep, Bool.not_eq_eq_eq_not, Bool.not_false, Bool.or_eq_true,
        decide_eq_true_eq] at hends
      rcases hends with rfl | rfl
      · exact ⟨by simp, by simp⟩
      · exact ⟨by simp, by simp⟩

end FileTree

namespace OnDisk

open FileTree

variable {t : FileTree} {p q : Path} {ms ns : List String}

/-- The removal of a file or a tree, and whether it has gone through. -/
def removal (q : Path) (t : FileTree) : FileTree.Changed :=
  if t.isDir q then t.removeTree q else attempt (·.removeFile q) t

theorem run_discard_eq_removal (q : Path) (t : FileTree) :
    ((discard q).run t).2 = (removal q t).1 := by
  rw [run_discard, removal]
  split <;> rfl

/-- The removal goes through, or there is nothing to remove. -/
def Removes (q : Path) (t : FileTree) : Prop :=
  (removal q t).2 = .ok () ∨ (removal q t).2 = .error .notFound

instance (q : Path) (t : FileTree) : Decidable (Removes q t) :=
  inferInstanceAs (Decidable (_ ∨ _))

/-- Nothing is left where a removal has gone through. -/
theorem bareAt?_of_removes (hq : q.Leads ms) (hms : ms ≠ []) (h : Removes q t) :
    (removal q t).1.bareAt? ms = none := by
  rw [← run_discard_eq_removal]
  cases hnode : t.get? ms with
  | none =>
      rw [discard_of_get?_eq_none hq.isAbsolute (by rwa [hq.destination_eq]), bareAt?, hnode]
      rfl
  | some node =>
      rcases address_of_node hq hnode with haddress | haddress
      · cases node with
        | file text =>
            rw [discard_file haddress hnode, bareAt?_erase hms (by rw [hnode]; rfl),
              if_pos (List.prefix_refl ms)]
        | dir es =>
            have hagain : (t.set ms empty).address q = .ok ms :=
              address_of_get? hq (get?_set_self t ms empty) (.inl rfl)
            have hdir : t.isDir q = true := by
              rw [isDir, find, haddress]
              dsimp only [bind, Except.bind]
              rw [hnode]
            rw [Removes, removal, if_pos hdir] at h
            cases hends : endsOnName q with
            | false =>
                obtain ⟨hok, hmissing⟩ := removeTree_fails haddress hnode hagain hends
                exact absurd h (not_or.2 ⟨hok, hmissing⟩)
            | true =>
                rw [discard_dir haddress hnode hagain, if_pos hends,
                  bareAt?_erase hms (by rw [get?_set_self]; rfl), if_pos (List.prefix_refl ms)]
      · -- a file that is asked for as a directory is not removed
        have hdir : t.isDir q = false := by
          rw [isDir, find, haddress]
          rfl
        rw [Removes, removal, if_neg (by rw [hdir]; exact Bool.false_ne_true), attempt, removeFile,
          haddress] at h
        rcases h with h | h
        · cases h
        · cases h

/-- A file is written beside the places that its path does not pass through. -/
theorem same_writeFile (hp : p.isAbsolute = true) (hns : ¬ p.PassesThrough ns) (text : String) :
    Keeps (Same (·.bareAt? ns)) (writeFile p text) := by
  have hne : ns ≠ p.destination := fun heq => hns (heq ▸ p.passesThrough_destination)
  exact fun t => (leftAlone_writeFile hp id hne text t).resolve_right fun h => hns h.1

theorem same_copyFile (hp : p.isAbsolute = true) (hns : ¬ p.PassesThrough ns) (source : Path) :
    Keeps (Same (·.bareAt? ns)) (copyFile source p) := by
  have hne : ns ≠ p.destination := fun heq => hns (heq ▸ p.passesThrough_destination)
  exact fun t => (leftAlone_copyFile hp id hne source t).resolve_right fun h => hns h.1

end OnDisk

/-! ## Pages -/

namespace PageTree

/-- Names of pages lead to directories. -/
theorem Reaches.get? {es last : List (String × FileTree)} {names : List String}
    (h : Reaches es names last) {tree : FileTree} (hsound : tree.Sound) {here : List String}
    (hhere : tree.get? here = some (.dir es)) :
    tree.get? (here ++ names) = some (.dir last) := by
  induction h generalizing here with
  | here es => rwa [List.append_nil]
  | into entry page rest ih =>
      rw [List.append_cons]
      exact ih (FileTree.get?_entry hhere (hsound.distinct here _ hhere) entry)

/-- The directories of the pages that a load reports are there. -/
theorem exists?_of_visited {tree : FileTree} (hsound : tree.Sound) {req : PageRequest} {p : Page}
    (hp : p ∈ (load tree req).visited) : tree.exists? p.dir = true := by
  rcases load_trace hsound with ⟨hnone, -⟩ | ⟨pattern, entries, reported, -, hfind, hentries, -,
    htrace⟩
  · rw [hnone] at hp
    cases hp
  · have hreported := htrace.reported hentries
    rw [hreported.pages] at hp
    obtain ⟨q, hq, rfl⟩ := List.mem_map.1 hp
    obtain ⟨es, hcomplete⟩ := hreported.complete q hq
    obtain ⟨htext, here, hreach, hhere⟩ := FileTree.reach_of_find hfind
    obtain ⟨htext', hreach'⟩ := FileTree.reach_below htext hreach
      (reaches_isName hcomplete.reached hentries) (hcomplete.reached.get? hsound hhere)
    rw [(hreported.place hq).1]
    exact (FileTree.exists?_iff htext').2 ⟨_, hreach'⟩

end PageTree

namespace Expansion

open Script

/-- A route is registered for a directory that is there. -/
theorem exists?_of_route {s : Surroundings} (hsound : s.tree.Sound) {text : String}
    {cs : List Component} (h : .route cs ∈ moduleEntries s text) :
    ∃ q : Path, q.components = cs ∧ s.tree.exists? q = true := by
  have hpages : ∀ pattern, .route cs ∈ pageEntries s pattern →
      ∃ q : Path, q.components = cs ∧ s.tree.exists? q = true := by
    intro pattern hmem
    obtain ⟨p, hp, heq⟩ := List.mem_map.1 hmem
    exact ⟨p.dir, Entry.route.inj heq, PageTree.exists?_of_visited hsound hp⟩
  have htranslations : ∀ pattern, .route cs ∉ translationEntries s pattern := by
    intro pattern hmem
    rw [translationEntries] at hmem
    split at hmem
    · obtain ⟨t, -, heq⟩ := List.mem_map.1 hmem
      cases heq
    · cases hmem
  rw [moduleEntries] at h
  split at h
  · next tree calls _ =>
      obtain ⟨call, -, hcall⟩ := List.mem_flatMap.1 h
      rw [registrable] at hcall
      split at hcall
      · split at hcall
        · next pattern _ =>
            rcases List.mem_append.1 hcall with hmem | hmem
            · exact hpages pattern hmem
            · exact absurd hmem (htranslations pattern)
        · cases hcall
      · split at hcall
        · next pattern _ => exact hpages pattern hcall
        · cases hcall
      · split at hcall
        · rw [List.mem_singleton] at hcall
          cases hcall
        · cases hcall
      · cases hcall
  · cases h

end Expansion

namespace Session

open FileTree

variable {s s' : Session} {t : FileTree} {p out : Path} {changes : List (Path × PathChange)}

/-! ## What a batch reads -/

/-- What is planned is there: a batch plans files that it is told of. -/
theorem mem_files_noteChanges (modules : Bool) {plan : Plan}
    (h : p ∈ ((noteChanges changes plan s t).2.2.2.files modules).toList) :
    p ∈ (plan.files modules).toList ∨ t.exists? p = true ∧ ∃ c ∈ changes, c.1 = p := by
  induction changes generalizing plan s t with
  | nil => exact .inl h
  | cons c changes ih =>
      have hreduced := heed_reduced s t c
      rw [noteChanges_cons] at h
      rcases ih h with h | ⟨hthere, c', hc', heq⟩
      · change p ∈ (((s.heed t c).2.1.withChange (s.heed t c).1 plan c).files modules).toList at h
        rw [withChange_files] at h
        split at h
        · next q hasked =>
            obtain ⟨rfl, -, hfile⟩ := asks?_eq_some hasked
            rcases PathMap.mem_keys_insert h with h | rfl
            · exact .inl h
            · exact .inr ⟨hreduced.exists? (exists?_of_isFile hfile), c, List.mem_cons_self, rfl⟩
        · exact .inl h
      · exact .inr ⟨hreduced.exists? hthere, c', List.mem_cons_of_mem c hc', heq⟩

theorem mem_keys_without {α : Type} {m : PathMap α} {k : Path} :
    k ∈ (m.without changes).keys ↔ k ∈ m.keys ∧ ∀ c ∈ changes, tellsGone k c = false := by
  rw [PathMap.keys, PathMap.keys, List.mem_map, List.mem_map]
  constructor
  · rintro ⟨e, he, rfl⟩
    obtain ⟨hmem, hkept⟩ := List.mem_filter.1 he
    exact ⟨⟨e, hmem, rfl⟩, by simpa using hkept⟩
  · rintro ⟨⟨e, he, rfl⟩, hkept⟩
    exact ⟨e, List.mem_filter.2 ⟨he, by simpa using hkept⟩, rfl⟩

/-- A batch processes files that were there, and it knows them from the cache or is told of
them. -/
theorem mem_batchModules_noted {k : Path}
    (hk : k ∈ (noteChanges changes {} s t).2.1.batchModules (noteChanges changes {} s t).1
      (noteChanges changes {} s t).2.2.2) :
    t.exists? k = true ∧ (k ∈ s.cache.modules.keys ∨ ∃ c ∈ changes, c.1 = k) := by
  obtain ⟨hmem, hfile⟩ := List.mem_filter.1 hk
  refine ⟨(noteChanges_reduced changes {} s t).exists? (exists?_of_isFile hfile), ?_⟩
  rcases PathSet.mem_addAll hmem with hmem | hmem
  · have hcached := mem_dependents hmem
    rw [noteChanges_session] at hcached
    exact .inl (mem_keys_without.1 hcached).1
  · rcases mem_files_noteChanges true hmem with hnone | ⟨-, htold⟩
    · exact absurd hnone List.not_mem_nil
    · exact .inr htold

/-! ## What is registered and cached after a batch -/

/-- A batch adds to the registry what files can register that were there when the changes had
been noted, and takes away what the changes tell is gone. -/
theorem applyBatch_later (s : Session) (changes : List (Path × PathChange)) (t : FileTree) :
    ∃ es, Later es (s.without changes) (s.applyBatch changes t).2.1 ∧
      ∀ e ∈ es, ∃ file, e ∈ (s.without changes).entriesOf (noteChanges changes {} s t).1 file := by
  rw [applyBatch_eq, ← noteChanges_session {} s t changes]
  refine ⟨_, processAll_later _ _ _ _, fun e he => ?_⟩
  obtain ⟨file, -, hentry⟩ := List.mem_flatMap.1 he
  exact ⟨file, hentry⟩

theorem mem_routes_applyBatch (hsound : t.Sound) {k : Path}
    (hk : k ∈ (s.applyBatch changes t).2.1.registry.routes.keys) :
    (∃ k' ∈ (s.registry.routes.without changes).keys, k'.components = k.components) ∨
      ∃ q : Path, q.components = k.components ∧ t.exists? q = true := by
  have hreduced := noteChanges_reduced changes {} s t
  obtain ⟨es, hlater, hentries⟩ := s.applyBatch_later changes t
  have hhas : (s.applyBatch changes t).2.1.registry.has (.route k.components) = true := by
    rw [Registry.has_route]
    exact PathMap.contains_iff.2 ⟨k, hk, rfl⟩
  cases hbefore : (s.without changes).registry.has (.route k.components) with
  | true =>
      rw [Registry.has_route] at hbefore
      exact .inl (PathMap.contains_iff.1 hbefore)
  | false =>
      obtain ⟨file, hentry⟩ := hentries _ (hlater.grows.mem_of_has hbefore hhas)
      rw [entriesOf] at hentry
      split at hentry
      · obtain ⟨q, hq, hthere⟩ := Expansion.exists?_of_route (hreduced.sound hsound) hentry
        exact .inr ⟨q, hq, hreduced.exists? hthere⟩
      · cases hentry

theorem mem_cached_applyBatch {k : Path}
    (hk : k ∈ (s.applyBatch changes t).2.1.cache.modules.keys) :
    k ∈ (s.cache.modules.without changes).keys ∨ t.exists? k = true := by
  rw [applyBatch_eq] at hk
  rcases processAll_cached hk with hk | hk
  · rw [noteChanges_session] at hk
    exact .inl hk
  · exact .inr (mem_batchModules_noted hk).1

/-- A route that no change tells is gone stays. -/
theorem contains_routes_applyBatch {k : Path} (hk : k ∈ s.registry.routes.keys)
    (hkept : ∀ c ∈ changes, tellsGone k c = false) :
    (s.applyBatch changes t).2.1.registry.routes.contains k = true := by
  have hbefore : (s.without changes).registry.has (.route k.components) = true := by
    rw [Registry.has_route]
    exact PathMap.contains_iff.2 ⟨k, mem_keys_without.2 ⟨hk, hkept⟩, rfl⟩
  obtain ⟨es, hlater, -⟩ := s.applyBatch_later changes t
  rw [← Registry.has_route]
  exact hlater.grows.has_of_has hbefore

/-! ## What is in the output tree after a batch -/

theorem noteChanges_append (before after : List (Path × PathChange)) (plan : Plan) (s : Session)
    (t : FileTree) : ∃ plan', (noteChanges (before ++ after) plan s t).1 =
      (noteChanges after plan' (noteChanges before plan s t).2.1
        (noteChanges before plan s t).1).1 := by
  induction before generalizing plan s t with
  | nil => exact ⟨plan, rfl⟩
  | cons c before ih =>
      rw [List.cons_append, noteChanges_cons, noteChanges_cons]
      exact ih _ _ _

/-- When it is noted that the path was removed, its place in the output tree is removed, or
nothing is found there. -/
def RemovesOutput (s : Session) (changes : List (Path × PathChange)) (t : FileTree) (p : Path) :
    Prop :=
  ∃ before after, changes = before ++ (p, .removed) :: after ∧
    ∀ out ∈ s.outputPath? p, OnDisk.Removes out (noteChanges before {} s t).1

/-- Nothing is in the place of what was removed once all changes are noted. -/
theorem RemovesOutput.bareAt?_noted (h : s.RemovesOutput changes t p)
    (hout : s.outputPath? p = some out) {ms : List String} (hleads : out.Leads ms)
    (hms : ms ≠ []) : (noteChanges changes {} s t).1.bareAt? ms = none := by
  obtain ⟨before, after, rfl, hremoves⟩ := h
  obtain ⟨plan, hnoted⟩ := noteChanges_append before ((p, .removed) :: after) {} s t
  have hplace : (noteChanges before {} s t).2.1.outputPath? p = some out := by
    rw [noteChanges_session, ← hout]
    exact outputPath?_congr rfl rfl p
  rw [hnoted, noteChanges_cons]
  refine (noteChanges_reduced after _ _ _).vacant ?_
  rw [heed, if_pos rfl, forget_tree]
  unfold removeOutput
  rw [hplace]
  dsimp only
  rw [OnDisk.run_discard_eq_removal]
  exact OnDisk.bareAt?_of_removes hleads hms (hremoves out hout)

/-- The trees are disjoint, and neither the root of the output tree nor a path among the
sources that is told or cached steps out again. -/
structure Straight (s : Session) (changes : List (Path × PathChange)) : Prop where
  roots : s.DisjointRoots
  src_absolute : s.srcDir.isAbsolute = true
  out_absolute : s.outDir.isAbsolute = true
  out_names : Component.parent ∉ s.outDir.components
  told : ∀ c ∈ changes, s.Plain c.1
  cached : ∀ k ∈ s.cache.modules.keys, s.Plain k

instance (s : Session) (changes : List (Path × PathChange)) : Decidable (s.Straight changes) :=
  decidable_of_iff (s.DisjointRoots ∧ s.srcDir.isAbsolute = true ∧ s.outDir.isAbsolute = true ∧
    Component.parent ∉ s.outDir.components ∧ (∀ c ∈ changes, s.Plain c.1) ∧
    ∀ k ∈ s.cache.modules.keys, s.Plain k)
    ⟨fun ⟨ha, hb, hc, hd, he, hf⟩ => ⟨ha, hb, hc, hd, he, hf⟩,
      fun ⟨ha, hb, hc, hd, he, hf⟩ => ⟨ha, hb, hc, hd, he, hf⟩⟩

namespace Straight

variable (h : s.Straight changes)
include h

theorem out_leads : ∃ ns, ns ≠ [] ∧ s.outDir.Leads ns := by
  have hroot := Path.components_absolute h.out_absolute
  obtain ⟨ns, hns⟩ := Path.exists_names h.out_absolute (List.Subset.refl _)
    fun hup => h.out_names (hroot ▸ List.mem_cons_of_mem _ hup)
  have hleads : s.outDir.Leads ns := ⟨h.out_absolute, hns⟩
  refine ⟨ns, fun hnil => h.roots.2.2 ?_, hleads⟩
  rw [hleads.destination_eq, hnil]
  exact List.nil_prefix

section

variable {ks : List String} (hp : s.srcDir.Extends ks p) (hout : s.outputPath? p = some out)
include hp hout

theorem output_leads : ∃ ms, ms ≠ [] ∧ out.Leads ms := by
  obtain ⟨ns, hne, hleads⟩ := h.out_leads
  obtain ⟨out', hout', hextends, -⟩ :=
    outputPath?_extends_of_absolute h.src_absolute h.out_absolute hp
  rw [hout] at hout'
  cases hout'
  refine ⟨ns ++ ks, List.append_ne_nil_of_left_ne_nil hne ks, ?_⟩
  rw [Path.leads_iff, hextends.components, hleads.components_eq, List.map_append, List.cons_append]

/-- The way to the place of a file leads through the place of another path only if the file
is at or below it. -/
theorem not_passesThrough_output {file target : Path} (hplain : s.Plain file)
    (hbelow : file.startsWith p = false) (htarget : s.outputPath? file = some target) :
    target.isAbsolute = true ∧ ¬ target.PassesThrough out.destination := by
  have hsrc : file.startsWith s.srcDir = true := by
    refine Bool.not_eq_false _ ▸ fun houtside => ?_
    rw [outputPath?_eq_none houtside] at htarget
    cases htarget
  obtain ⟨ns, hfile⟩ := hplain.extends_of_absolute h.src_absolute hsrc
  obtain ⟨target', htarget', hextends, -⟩ :=
    outputPath?_extends_of_absolute h.src_absolute h.out_absolute hfile
  obtain ⟨out', hout', hextendsOut, -⟩ :=
    outputPath?_extends_of_absolute h.src_absolute h.out_absolute hp
  rw [htarget] at htarget'
  rw [hout] at hout'
  cases htarget'
  cases hout'
  refine ⟨hextends.absolute, fun hpasses => ?_⟩
  rw [hextendsOut.destination_eq] at hpasses
  have hbegin : ks <+: ns := by
    rcases hextends.passesThrough hpasses with hway | ⟨ms, hms, heq⟩
    · obtain ⟨names, -, hleads⟩ := h.out_leads
      have haround := hleads.around_of_passesThrough hway
      rw [hleads.destination_eq] at haround
      have heq := haround.eq_of_length_le (List.prefix_append names ks).length_le
      rw [List.append_right_eq_self.1 heq]
      exact List.nil_prefix
    · rwa [List.append_cancel_left heq]
  rw [Path.startsWith, hfile.components, hp.components] at hbelow
  refine Bool.false_ne_true (hbelow.symm.trans (List.isPrefixOf_iff_prefix.2 ?_))
  exact (List.prefix_append_right_inj _).2 (hbegin.map _)

section

variable (hroot : s'.root = s.root) (hconfiguration : s'.configuration = s.configuration)
  {file : Path} (hplain : s.Plain file) (hbelow : file.startsWith p = false)
include hroot hconfiguration hplain hbelow

theorem writeOutput_beside (text : String) :
    OnDisk.Keeps (OnDisk.Same (·.bareAt? out.destination)) (s'.writeOutput file text) := by
  unfold writeOutput
  split
  · next target htarget =>
      rw [outputPath?_congr hroot hconfiguration] at htarget
      obtain ⟨habs, hway⟩ := h.not_passesThrough_output hp hout hplain hbelow htarget
      exact OnDisk.same_writeFile habs hway text
  · exact .pure ()

theorem copyOutput_beside :
    OnDisk.Keeps (OnDisk.Same (·.bareAt? out.destination)) (s'.copyOutput file) := by
  unfold copyOutput
  split
  · next target htarget =>
      rw [outputPath?_congr hroot hconfiguration] at htarget
      obtain ⟨habs, hway⟩ := h.not_passesThrough_output hp hout hplain hbelow htarget
      exact OnDisk.same_copyFile habs hway file
  · exact .pure ()

end

/-- Once the changes are noted, a batch leaves the place of a path that leads to nothing as it
is. -/
theorem bareAt?_applyBatch (hne : p.components ≠ []) (hlacks : t.Lacks p) :
    (s.applyBatch changes t).1.bareAt? out.destination =
      (noteChanges changes {} s t).1.bareAt? out.destination := by
  obtain ⟨es, hlater, -⟩ := s.applyBatch_later changes t
  have hroot : (s.applyBatch changes t).2.1.root = s.root := hlater.root
  have hconfiguration : (s.applyBatch changes t).2.1.configuration = s.configuration :=
    hlater.configuration
  have hmodules : ∀ r ∈ s.batchResults changes t, s.Plain r.1 ∧ r.1.startsWith p = false := by
    intro r hr
    rw [batchResults_eq] at hr
    have hmem := (processAll_paths_perm _ _ _ _).mem_iff.1 (List.mem_map_of_mem (f := (·.1)) hr)
    obtain ⟨hthere, hknown⟩ := mem_batchModules_noted hmem
    refine ⟨?_, hlacks.below hne hthere⟩
    rcases hknown with hcached | ⟨c, hc, heq⟩
    · exact h.cached _ hcached
    · exact heq ▸ h.told c hc
  have hassets : ∀ file ∈ (noteChanges changes {} s t).2.2.2.assets.toList,
      s.Plain file ∧ file.startsWith p = false := by
    intro file hfile
    rcases mem_files_noteChanges false hfile with hnone | ⟨hthere, c, hc, rfl⟩
    · exact absurd hnone List.not_mem_nil
    · exact ⟨h.told c hc, hlacks.below hne hthere⟩
  rw [batchResults_eq] at hmodules
  rw [applyBatch_eq] at hroot hconfiguration ⊢
  dsimp only at hmodules hroot hconfiguration ⊢
  have hrewritten (report : BatchReport) := rewriteAll_keeps (fun r hr text _ =>
    h.writeOutput_beside hp hout hroot hconfiguration (hmodules r hr).1 (hmodules r hr).2 text)
    report (noteChanges changes {} s t).1
  have hcopied (report : BatchReport) (t' : FileTree) := copyAll_keeps (fun file hfile =>
    h.copyOutput_beside hp hout hroot hconfiguration (hassets file hfile).1 (hassets file hfile).2)
    report t'
  exact (hcopied _ _).trans (hrewritten _)

end

end Straight

/-- Nothing is found at or below the place of the path in the output tree. -/
def LacksOutput (s : Session) (t : FileTree) (p : Path) : Prop :=
  ∃ out, s.outputPath? p = some out ∧ ∀ q : Path, q.startsWith out = true → t.exists? q = false

theorem not_lacksOutput (out q : Path) (hout : s.outputPath? p = some out)
    (hq : q.startsWith out = true) (hthere : t.exists? q = true) : ¬ s.LacksOutput t p := by
  rintro ⟨out', hout', hnone⟩
  rw [hout] at hout'
  cases hout'
  rw [hnone q hq] at hthere
  cases hthere

/-- Once it is noted that a path which leads to nothing was removed, and its place was, nothing
comes to be in its place. -/
theorem Straight.lacksOutput (h : s.Straight changes) (hne : p.components ≠ [])
    (hlacks : t.Lacks p) (hsrc : p.startsWith s.srcDir = true)
    (hremoves : s.RemovesOutput changes t p) : s.LacksOutput (s.applyBatch changes t).1 p := by
  have hplain : s.Plain p := by
    obtain ⟨before, after, rfl, -⟩ := hremoves
    exact h.told _ (List.mem_append_right _ List.mem_cons_self)
  obtain ⟨ks, hks⟩ := hplain.extends_of_absolute h.src_absolute hsrc
  obtain ⟨out, hout, -⟩ := outputPath?_extends_of_absolute h.src_absolute h.out_absolute hks
  obtain ⟨ms, hms, hleads⟩ := h.output_leads hks hout
  refine ⟨out, hout, fun q hq => Bool.eq_false_iff.2 fun hthere => ?_⟩
  rw [Path.startsWith, List.isPrefixOf_iff_prefix] at hq
  have habs : q.isAbsolute = true := by
    rw [hleads.components_eq] at hq
    obtain ⟨cs, hcs⟩ := hq
    exact Path.isAbsolute_iff_components.2 ⟨_, hcs.symm⟩
  obtain ⟨node, hnode⟩ := exists_of_passesThrough habs hthere ⟨out.components, hq, rfl⟩
  have hvacant := hremoves.bareAt?_noted hout hleads hms
  rw [← hleads.destination_eq, ← h.bareAt?_applyBatch hks hout hne hlacks, Path.destination,
    hnode] at hvacant
  cases hvacant

/-- The session knows no route and no module at or below the path. -/
def Forgets (s : Session) (p : Path) : Prop :=
  (∀ k ∈ s.registry.routes.keys, k.startsWith p = false) ∧
    ∀ k ∈ s.cache.modules.keys, k.startsWith p = false

instance (s : Session) (p : Path) : Decidable (s.Forgets p) :=
  inferInstanceAs (Decidable (_ ∧ _))

/-- Where a path leads to nothing, a batch that tells so leaves no route and no module at or
below it, and nothing in its place in the output tree, if what is there can be removed. The
routes that are not at or below a removed path stay. -/
theorem applyBatch_removes (hsound : t.Sound) (hp : (p, .removed) ∈ changes)
    (hne : p.components ≠ []) (hlacks : t.Lacks p) :
    (s.applyBatch changes t).2.1.Forgets p ∧
      (s.Straight changes → p.startsWith s.srcDir = true → s.RemovesOutput changes t p →
        s.LacksOutput (s.applyBatch changes t).1 p) ∧
      ∀ k ∈ s.registry.routes.keys,
        (∀ gone, (gone, .removed) ∈ changes → k.startsWith gone = false) →
          (s.applyBatch changes t).2.1.registry.routes.contains k = true := by
  refine ⟨⟨fun k hk => ?_, fun k hk => ?_⟩, fun hstraight hsrc hremoves =>
    hstraight.lacksOutput hne hlacks hsrc hremoves, fun k hk hkept => ?_⟩
  · rcases mem_routes_applyBatch hsound hk with ⟨k', hk', hsame⟩ | ⟨q, hsame, hthere⟩
    · have hgone := (mem_keys_without.1 hk').2 _ hp
      rwa [tellsGone, beq_self_eq_true, Bool.true_and, Path.startsWith, hsame] at hgone
    · have hbelow := hlacks.below hne hthere
      rwa [Path.startsWith, hsame] at hbelow
  · rcases mem_cached_applyBatch hk with hk | hthere
    · have hgone := (mem_keys_without.1 hk).2 _ hp
      rwa [tellsGone, beq_self_eq_true, Bool.true_and] at hgone
    · exact hlacks.below hne hthere
  · refine contains_routes_applyBatch hk fun c hc => ?_
    rw [tellsGone]
    by_cases hremoved : c.2 = .removed
    · obtain ⟨gone, change⟩ := c
      cases hremoved
      rw [hkept gone hc, Bool.and_false]
    · rw [beq_eq_false_iff_ne.2 hremoved, Bool.false_and]

/-- A directory is gone, of which there are a route, a module and output still, and a module is
expanded that registers the pages beside it again. -/
theorem applyBatch_removes_directory :
    let s := { ofProject with
      registry := (Registry.registerRoute {} ⟨"/p/src/x"⟩ "/x").registerRoute ⟨"/p/src/pages"⟩ "/"
      cache := ModuleCache.insert {} ⟨"/p/src/x/m.ts"⟩ ⟨"", {}, ""⟩ }
    let t := FileTree.dir [("p", .dir
      [("src", .dir [("pages", flat [("index.tsx", "")]),
        ("a.ts", .file "import\x7bloadRoutes\x7dfrom\"pages.macro\"\nloadRoutes(\"/src/pages\")")]),
      (".pagemacro", .dir [("out", .dir [("x", flat [("m.ts", "")])])])])]
    let p : Path := ⟨"/p/src/x"⟩
    let changes := [(p, .removed), (⟨"/p/src/a.ts"⟩, .modified)]
    (t.Sound ∧ (p, .removed) ∈ changes ∧ p.components ≠ [] ∧ t.Lacks p ∧ s.Straight changes ∧
      p.startsWith s.srcDir = true ∧ s.RemovesOutput changes t p) ∧
      (s.applyBatch changes t).2.1.Forgets p ∧ s.LacksOutput (s.applyBatch changes t).1 p ∧
      (s.applyBatch changes t).2.1.registry.routes.contains ⟨"/p/src/pages"⟩ = true := by
  intro s t p changes
  have hsound : t.Sound := by decide +kernel
  have hmem : (p, .removed) ∈ changes := List.mem_cons_self
  have hne : p.components ≠ [] := by decide +kernel
  have hlacks : t.Lacks p :=
    FileTree.lacks_of_passesThrough (by decide +kernel) p.passesThrough_destination
      (by decide +kernel)
  have hstraight : s.Straight changes := by decide +kernel
  have hsrc : p.startsWith s.srcDir = true := by decide +kernel
  have hremoves : s.RemovesOutput changes t p :=
    ⟨[], [(⟨"/p/src/a.ts"⟩, .modified)], rfl, by decide +kernel⟩
  obtain ⟨hforgets, hlacksOutput, hkept⟩ := applyBatch_removes hsound hmem hne hlacks
  refine ⟨⟨hsound, hmem, hne, hlacks, hstraight, hsrc, hremoves⟩, hforgets,
    hlacksOutput hstraight hsrc hremoves, hkept ⟨"/p/src/pages"⟩ (by decide +kernel) ?_⟩
  intro gone hgone
  rcases List.mem_cons.1 hgone with heq | hgone
  · cases heq
    decide +kernel
  · cases List.mem_singleton.1 hgone

/-- That nothing is found by a path is not enough. A file may be there without the slash that
the path ends in, and every path is below the empty one. And what is written to the output
tree may come to be in the place of the path if the path, another one, the path of a cached
module or that of the output tree steps out of a directory that is not there. -/
theorem absence_insufficient :
    (¬ ∀ (s : Session) (t : FileTree) (changes : List (Path × PathChange)) (p : Path),
      s.Straight changes → t.Sound → s.RemovesOutput changes t p → t.exists? p = false →
      (s.applyBatch changes t).2.1.Forgets p) ∧
    (¬ ∀ (s : Session) (t : FileTree) (changes : List (Path × PathChange)) (p : Path),
      s.Straight changes → t.Sound → s.RemovesOutput changes t p → t.Lacks p →
      (s.applyBatch changes t).2.1.Forgets p) ∧
    (¬ ∀ (s : Session) (t : FileTree) (changes : List (Path × PathChange)) (p : Path),
      s.Straight [] → t.Sound → s.RemovesOutput changes t p → t.Lacks p →
      p.startsWith s.srcDir = true → s.LacksOutput (s.applyBatch changes t).1 p) ∧
    (¬ ∀ (s : Session) (t : FileTree) (changes : List (Path × PathChange)) (p : Path),
      s.Straight [] → s.Plain p → t.Sound → s.RemovesOutput changes t p → t.Lacks p →
      p.startsWith s.srcDir = true → s.LacksOutput (s.applyBatch changes t).1 p) ∧
    (¬ ∀ (s : Session) (t : FileTree) (changes : List (Path × PathChange)) (p : Path),
      { s with cache := {} }.Straight changes → t.Sound → s.RemovesOutput changes t p →
      t.Lacks p → p.startsWith s.srcDir = true → s.LacksOutput (s.applyBatch changes t).1 p) ∧
    ¬ ∀ (s : Session) (t : FileTree) (changes : List (Path × PathChange)) (p : Path),
      s.DisjointRoots → s.srcDir.isAbsolute = true → s.outDir.isAbsolute = true →
      (∀ c ∈ changes, s.Plain c.1) → (∀ k ∈ s.cache.modules.keys, s.Plain k) → t.Sound →
      s.RemovesOutput changes t p → t.Lacks p → p.startsWith s.srcDir = true →
      s.LacksOutput (s.applyBatch changes t).1 p := by
  let text := "import\x7bloadI18n\x7dfrom\"i18n.macro\"\nloadI18n(\"./*.yaml\")"
  have hlacks : ∀ {t : FileTree} {p : Path}, p.isAbsolute = true →
      t.bareAt? p.destination = none → t.Lacks p := fun {_ p} hp h =>
    FileTree.lacks_of_passesThrough hp p.passesThrough_destination h
  refine ⟨fun hclaim => ?_, fun hclaim => ?_, fun hclaim => ?_, fun hclaim => ?_,
    fun hclaim => ?_, fun hclaim => ?_⟩
  · have hforgets := hclaim ofProject (unbuilt [("a.ts", text), ("en.yaml", "")])
      [(⟨"/p/src/a.ts/"⟩, .removed), (⟨"/p/src/a.ts"⟩, .modified)] ⟨"/p/src/a.ts/"⟩
      (by decide +kernel) (by decide +kernel) ⟨[], _, rfl, by decide +kernel⟩ (by decide +kernel)
    exact absurd hforgets (by decide +kernel)
  · have hforgets := hclaim ofProject (unbuilt [("a.ts", text), ("en.yaml", "")])
      [(⟨""⟩, .removed), (⟨"/p/src/a.ts"⟩, .modified)] ⟨""⟩
      (by decide +kernel) (by decide +kernel) ⟨[], _, rfl, by decide +kernel⟩ ?_
    · exact absurd hforgets (by decide +kernel)
    · exact fun q hq => FileTree.exists?_eq_false_of_nil hq
  · have hway : Path.PassesThrough ⟨"/p/src/gone/../y"⟩ ["p", "src", "gone"] :=
      ⟨_, List.take_prefix 4 _, by decide⟩
    have hnone := hclaim ofProject (.dir [("p", .dir [("src", .dir [("y", flat [("b.css", "")])]),
        (".pagemacro", .dir [("out", .dir [("gone", .dir [])])])])])
      [(⟨"/p/src/gone/../y"⟩, .removed), (⟨"/p/src/y/b.css"⟩, .modified)] ⟨"/p/src/gone/../y"⟩
      (by decide +kernel) (by decide +kernel) ⟨[], _, rfl, by decide +kernel⟩
      (FileTree.lacks_of_passesThrough (by decide) hway (by decide +kernel))
      (by decide +kernel)
    exact not_lacksOutput ⟨"/p/.pagemacro/out/gone/../y"⟩ ⟨"/p/.pagemacro/out/gone/../y"⟩
      (by decide +kernel) (by decide +kernel) (by decide +kernel) hnone
  · have hnone := hclaim ofProject (.dir [("p", .dir [("src", .dir []),
        ("out", .dir [("gone", flat [("b.css", "")])])])])
      [(⟨"/p/src/gone"⟩, .removed), (⟨"/p/src/../out/gone/b.css"⟩, .modified)] ⟨"/p/src/gone"⟩
      (by decide +kernel) (by decide +kernel) (by decide +kernel) ⟨[], _, rfl, by decide +kernel⟩
      (hlacks (by decide +kernel) (by decide +kernel)) (by decide +kernel)
    exact not_lacksOutput ⟨"/p/.pagemacro/out/gone"⟩ ⟨"/p/.pagemacro/out/gone"⟩
      (by decide +kernel) (by decide +kernel) (by decide +kernel) hnone
  · have hnone := hclaim { ofProject with
        cache := ModuleCache.insert {} ⟨"/p/src/../out/gone/m.ts"⟩
          ⟨"", { namespaces := true }, ""⟩ }
      (.dir [("p", .dir [("src", flat [("en.yaml", "")]),
        ("out", .dir [("gone", flat [("m.ts", "")])])])])
      [(⟨"/p/src/gone"⟩, .removed), (⟨"/p/src/en.yaml"⟩, .modified)] ⟨"/p/src/gone"⟩
      (by decide +kernel) (by decide +kernel) ⟨[], _, rfl, by decide +kernel⟩
      (hlacks (by decide +kernel) (by decide +kernel)) (by decide +kernel)
    exact not_lacksOutput ⟨"/p/.pagemacro/out/gone"⟩ ⟨"/p/.pagemacro/out/gone"⟩
      (by decide +kernel) (by decide +kernel) (by decide +kernel) hnone
  · have hnone := hclaim (withRoots "src" "x/../out")
      (.dir [("p", .dir [("src", flat [("b.css", "")]), ("out", .dir [("y", .dir [])])])])
      [(⟨"/p/src/y"⟩, .removed), (⟨"/p/src/b.css"⟩, .modified)] ⟨"/p/src/y"⟩
      (by decide +kernel) (by decide +kernel) (by decide +kernel) (by decide +kernel)
      (by decide +kernel) (by decide +kernel) ⟨[], _, rfl, by decide +kernel⟩
      (hlacks (by decide +kernel) (by decide +kernel)) (by decide +kernel)
    exact not_lacksOutput ⟨"/p/x/../out/y"⟩ ⟨"/p/x/../out/y"⟩
      (by decide +kernel) (by decide +kernel) (by decide +kernel) hnone

end Session

end SiteMacros
