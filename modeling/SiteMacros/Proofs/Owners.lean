import SiteMacros.Proofs.RegisteredPages

/-!
# Which directory owns a file

There are two ways from a file to the directory that it belongs to. A route is looked
up on paths: the nearest of the paths around the file's directory that has one. A
namespace is looked up on texts: the longest loaded one that the namespace of the
file's directory starts with, up to a bar.

The first is the deepest directory around the file, if the empty path is left out,
which is a beginning of every path and yet not on the way up from an absolute one
(`enclosingRoute?_eq_some_iff`). The second comes to the same below a root, where
names without bars lead from it to all the paths. There a namespace is a list of names
written down, the names can be read off it again, and one namespace starts with
another up to a bar just if the one list starts with the other (`encloses_bars_iff`).
Of two beginnings of one list the longer list is the longer text, so comparing texts
by length compares directories by depth. What the root is makes no difference.
-/

namespace SiteMacros

/-! ## The nearest directory with a route -/

/-- The path is one of those around `dir`, in whatever spelling. -/
structure Path.IsAround (k dir : Path) : Prop where
  startsWith : dir.startsWith k = true
  ne_empty : dir.isAbsolute = true → k.components ≠ []

theorem Path.isAround_iff {k dir : Path} :
    k.IsAround dir ↔ ∃ a ∈ dir.ancestors, a.components = k.components := by
  rw [exists_ancestor_iff, ← List.isPrefixOf_iff_prefix]
  exact ⟨fun h => ⟨h.startsWith, h.ne_empty⟩, fun h => ⟨h.1, h.2⟩⟩

/-- Of two paths around one directory, one is around the other. -/
theorem Path.startsWith_or_startsWith {k l dir : Path} (hk : dir.startsWith k = true)
    (hl : dir.startsWith l = true) : k.components <+: l.components ∨
      l.components <+: k.components :=
  List.prefix_or_prefix_of_prefix (List.isPrefixOf_iff_prefix.1 hk)
    (List.isPrefixOf_iff_prefix.1 hl)

namespace Registry

theorem enclosingRoute?_eq_none_iff {r : Registry} {dir : Path} :
    r.enclosingRoute? dir = none ↔ ∀ f ∈ r.routes.entries, ¬ f.1.IsAround dir := by
  rw [enclosingRoute?, List.findSome?_eq_none_iff]
  constructor
  · intro h f hf haround
    obtain ⟨a, ha, hsame⟩ := Path.isAround_iff.1 haround
    have hentry := h a ha
    rw [PathMap.entryAt?_congr _ hsame, PathMap.mem_entries_iff.1 hf] at hentry
    cases hentry
  · intro h a ha
    refine Option.eq_none_iff_forall_ne_some.2 fun f hf => ?_
    refine h f (List.mem_of_find?_eq_some hf) (Path.isAround_iff.2 ⟨a, ha, ?_⟩)
    exact (PathMap.components_of_entryAt? hf).symm

/-- The nearest directory with a route is the deepest of those around. -/
theorem enclosingRoute?_eq_some_iff {r : Registry} {dir : Path} {e : Path × String} :
    r.enclosingRoute? dir = some e ↔
      e ∈ r.routes.entries ∧ e.1.IsAround dir ∧
        ∀ f ∈ r.routes.entries, f.1.IsAround dir →
          f.1.components.length ≤ e.1.components.length := by
  have hnearest : ∀ {e : Path × String}, r.enclosingRoute? dir = some e →
      e ∈ r.routes.entries ∧ e.1.IsAround dir ∧
        ∀ f ∈ r.routes.entries, f.1.IsAround dir →
          f.1.components.length ≤ e.1.components.length := by
    intro e h
    obtain ⟨near, a, far, hsplit, he, hnear⟩ := List.findSome?_eq_some_iff.1 h
    have hsame := PathMap.components_of_entryAt? he
    have ha : a ∈ dir.ancestors := hsplit ▸ List.mem_append_right _ List.mem_cons_self
    refine ⟨List.mem_of_find?_eq_some he, Path.isAround_iff.2 ⟨a, ha, hsame.symm⟩, fun f hf hfar => ?_⟩
    obtain ⟨b, hb, hbf⟩ := Path.isAround_iff.1 hfar
    have hentry := PathMap.mem_entries_iff.1 hf
    rw [← PathMap.entryAt?_congr _ hbf] at hentry
    -- the paths around a directory get shorter from the inside out
    have hshorter := Path.length_components_ancestors_go (dir.components.length + 1) dir
    rw [← Path.ancestors, hsplit, List.pairwise_append, List.pairwise_cons] at hshorter
    rw [hsplit, List.mem_append, List.mem_cons] at hb
    rw [hsame, ← hbf]
    rcases hb with hb | rfl | hb
    · rw [hnear b hb] at hentry
      cases hentry
    · exact Nat.le_refl _
    · exact Nat.le_of_lt (hshorter.2.1.1 b hb)
  refine ⟨hnearest, ?_⟩
  rintro ⟨he, haround, hdeepest⟩
  cases hfound : r.enclosingRoute? dir with
  | none => exact absurd haround (enclosingRoute?_eq_none_iff.1 hfound e he)
  | some f =>
      obtain ⟨hf, hfaround, hfdeepest⟩ := hnearest hfound
      have hlength := Nat.le_antisymm (hdeepest f hf hfaround) (hfdeepest e he haround)
      have hsame : f.1.components = e.1.components := by
        rcases Path.startsWith_or_startsWith hfaround.startsWith haround.startsWith with h | h
        · exact h.eq_of_length hlength
        · exact (h.eq_of_length hlength.symm).symm
      rw [← PathMap.mem_entries_iff.1 hf, ← PathMap.mem_entries_iff.1 he,
        PathMap.entryAt?_congr _ hsame]

end Registry

/-! ## Names with bars between them -/

/-- What a namespace can be written with. -/
structure Namespace.IsPart (n : String) : Prop where
  ne_empty : n ≠ ""
  noBar : '|' ∉ n.toList

namespace Namespace

variable {ks ns : List String}

theorem pieces_bars (hne : ns ≠ []) (hns : ∀ n ∈ ns, IsPart n) :
    Text.pieces '|' ("|".intercalate ns).toList = ns.map String.toList :=
  Text.pieces_intercalate_toList rfl hne fun n hn => (hns n hn).noBar

theorem bars_ne_empty (hne : ns ≠ []) (hns : ∀ n ∈ ns, IsPart n) : "|".intercalate ns ≠ "" := by
  intro hempty
  have hpieces := pieces_bars hne hns
  rw [hempty] at hpieces
  obtain ⟨n, ms, rfl⟩ := List.exists_cons_of_ne_nil hne
  have hn := (List.cons.inj hpieces).1
  exact (hns n List.mem_cons_self).ne_empty (String.toList_eq_nil_iff.1 hn.symm)

/-- One namespace is around another if its names are the first ones of the other. -/
theorem encloses_bars_iff (hks : ∀ n ∈ ks, IsPart n) (hns : ∀ n ∈ ns, IsPart n) :
    Registry.encloses ("|".intercalate ns) ("|".intercalate ks) = true ↔ ks <+: ns := by
  rw [Registry.encloses_iff]
  by_cases hk : ks = []
  · subst hk
    exact iff_of_true (.inl rfl) List.nil_prefix
  · have hks' := pieces_bars hk hks
    constructor
    · rintro (hempty | hcaller)
      · exact absurd hempty (bars_ne_empty hk hks)
      · have hn : ns ≠ [] := by
          rintro rfl
          rcases hcaller with hcaller | ⟨rest, hcaller⟩
          · exact bars_ne_empty hk hks hcaller.symm
          · exact absurd hcaller.symm (List.append_ne_nil_of_right_ne_nil _ (List.cons_ne_nil _ _))
        have hns' := pieces_bars hn hns
        have hprefix : ks.map String.toList <+: ns.map String.toList := by
          rcases hcaller with hcaller | ⟨rest, hcaller⟩
          · have hsame : ks.map String.toList = ns.map String.toList := by
              rw [← hks', ← hns', hcaller]
            exact hsame ▸ List.prefix_rfl
          · rw [← hks', ← hns', hcaller, Text.pieces_append_sep]
            exact List.prefix_append _ _
        obtain ⟨ms, hms, heq⟩ := List.prefix_map_iff.1 hprefix
        rwa [List.map_inj_right (fun _ _ => String.toList_inj.1) |>.1 heq]
    · rintro ⟨ms, rfl⟩
      cases ms with
      | nil => exact .inr (.inl (by rw [List.append_nil]))
      | cons m ms =>
          rw [String.intercalate_append_of_ne_nil hk (List.cons_ne_nil m ms),
            String.toList_append, String.toList_append, List.append_assoc]
          exact .inr (.inr ⟨_, rfl⟩)

theorem bars_inj (hks : ∀ n ∈ ks, IsPart n) (hns : ∀ n ∈ ns, IsPart n)
    (h : "|".intercalate ks = "|".intercalate ns) : ks = ns := by
  have hself := Registry.encloses_self ("|".intercalate ns)
  have hks' : ks <+: ns := (encloses_bars_iff hks hns).1 (h ▸ hself)
  have hns' : ns <+: ks := (encloses_bars_iff hns hks).1 (h ▸ hself)
  exact hks'.eq_of_length (Nat.le_antisymm hks'.length_le hns'.length_le)

/-- Of two beginnings of one list, the longer list is the longer text. -/
theorem size_bars_le_iff {ms : List String} (hns : ∀ n ∈ ns, IsPart n) (hks : ks <+: ns)
    (hms : ms <+: ns) :
    ("|".intercalate ks).utf8ByteSize ≤ ("|".intercalate ms).utf8ByteSize ↔
      ks.length ≤ ms.length := by
  have hkparts : ∀ n ∈ ks, IsPart n := fun n hn => hns n (hks.mem hn)
  have hmparts : ∀ n ∈ ms, IsPart n := fun n hn => hns n (hms.mem hn)
  constructor
  · intro hsize
    by_contra hlt
    have hback : ms <+: ks := List.prefix_of_prefix_length_le hms hks (by omega)
    have hge := Registry.size_le_of_encloses ((encloses_bars_iff hmparts hkparts).2 hback)
    have hsame := Registry.eq_of_encloses ((encloses_bars_iff hkparts hns).2 hks)
      ((encloses_bars_iff hmparts hns).2 hms) (Nat.le_antisymm hsize hge)
    rw [bars_inj hkparts hmparts hsame] at hlt
    exact hlt (Nat.le_refl _)
  · intro hlength
    have hprefix : ks <+: ms := List.prefix_of_prefix_length_le hks hms hlength
    exact Registry.size_le_of_encloses ((encloses_bars_iff hkparts hmparts).2 hprefix)

end Namespace

/-! ## Below a root -/

/-- These names lead from the root to the path, and none of them has a bar. -/
structure Path.Inside (root p : Path) (ns : List String) : Prop where
  components : p.components = root.components ++ ns.map .name
  noBar : ∀ n ∈ ns, '|' ∉ n.toList

namespace Path.Inside

variable {root p q : Path} {ks ns : List String}

theorem isPart (h : root.Inside p ns) : ∀ n ∈ ns, Namespace.IsPart n := by
  intro n hn
  have hmem : .name n ∈ p.components := by
    rw [h.components]
    exact List.mem_append_right _ (List.mem_map_of_mem hn)
  exact ⟨(isName_of_mem_components hmem).ne_empty, h.noBar n hn⟩

theorem startsWith_iff (hp : root.Inside p ns) (hq : root.Inside q ks) :
    p.startsWith q = true ↔ ks <+: ns := by
  rw [startsWith, hp.components, hq.components, List.isPrefixOf_iff_prefix,
    List.prefix_append_right_inj, map_name_prefix_iff]

theorem components_eq_iff (hp : root.Inside p ns) (hq : root.Inside q ks) :
    p.components = q.components ↔ ns = ks := by
  rw [hp.components, hq.components, List.append_cancel_left_eq]
  exact ⟨map_name_inj, fun h => by rw [h]⟩

theorem length_components (hp : root.Inside p ns) :
    p.components.length = root.components.length + ns.length := by
  rw [hp.components, List.length_append, List.length_map]

/-- Below a root, whatever a path starts with is around it. -/
theorem isAround_iff (hp : root.Inside p ns) (hq : root.Inside q ks) :
    q.IsAround p ↔ p.startsWith q = true := by
  refine ⟨IsAround.startsWith, fun h => ⟨h, fun habs hnil => ?_⟩⟩
  obtain ⟨cs, hcs⟩ := isAbsolute_iff_components.1 habs
  rw [hq.components] at hnil
  rw [hp.components, (List.append_eq_nil_iff.1 hnil).1, List.nil_append] at hcs
  cases ns with
  | nil => exact nomatch hcs
  | cons n ns => exact nomatch (List.cons.inj hcs).1

/-- The directory of a file below a root is below it too, or is the root. -/
theorem directoryOf {n : String} (hp : root.Inside p (ns ++ [n])) :
    root.Inside (RoutePath.directoryOf p) ns := by
  have hcomponents := hp.components
  rw [List.map_append, List.map_singleton, ← List.append_assoc] at hcomponents
  have hsome : p.parent?.isSome = true := by
    rw [isSome_parent?]
    intro hsteps
    rw [Path.components, hsteps] at hcomponents
    have hmem : .name n ∈ (if p.isAbsolute then [Component.root] else []) :=
      hcomponents ▸ List.mem_append_right _ List.mem_cons_self
    split at hmem
    · cases List.mem_singleton.1 hmem
    · exact absurd hmem List.not_mem_nil
  obtain ⟨q, hq⟩ := Option.isSome_iff_exists.1 hsome
  obtain ⟨c, hc⟩ := components_parent? hq
  rw [hc] at hcomponents
  rw [RoutePath.directoryOf, hq, Option.getD_some]
  exact ⟨(List.append_inj' hcomponents rfl).1,
    fun m hm => hp.noBar m (List.mem_append_left _ hm)⟩

theorem slashed_names (ns : List String) : slashed (ns.map .name) = "/".intercalate ns := by
  rw [slashed, List.filterMap_map]
  exact congrArg _ List.filterMap_some

theorem toSlashed_relativeTo? (hp : root.Inside p ns) :
    (p.relativeTo? root).map toSlashed = some ("/".intercalate ns) := by
  rw [← slashed_names]
  by_cases hroot : root.components = []
  · have hcomponents := hp.components
    rw [hroot, List.nil_append] at hcomponents
    have hbelow : p.startsWith root = true := by
      rw [startsWith, hroot]
      rfl
    rw [relativeTo?, if_pos hbelow, hroot]
    dsimp only [List.length_nil]
    rw [Option.map_some, toSlashed, components_ofPieces (dropEndWhile_isPrefix idle p.pieces),
      filterMap_dropEndWhile_idle, ← hcomponents]
    rfl
  · obtain ⟨rel, hrel, habs, hsteps, -⟩ := relativeTo?_below hroot hp.components
    rw [hrel, Option.map_some, toSlashed, slashed_components habs, hsteps]

/-- The namespace of a path below a root are the names that lead to it. -/
theorem ofDirectory (hp : root.Inside p ns) :
    Namespace.ofDirectory p root = "|".intercalate ns := by
  obtain ⟨rel, hrel, hslashed⟩ := Option.map_eq_some_iff.1 hp.toSlashed_relativeTo?
  rw [Namespace.ofDirectory, hrel, Option.getD_some, hslashed]
  by_cases hne : ns = []
  · subst hne
    decide
  · have hnames : ∀ n ∈ ns, '/' ∉ n.toList := fun n hn =>
      (isName_of_mem_components (by
        rw [hp.components]
        exact List.mem_append_right _ (List.mem_map_of_mem hn))).noSlash
    rw [Text.split, Text.pieces_intercalate_toList rfl hne hnames, List.map_map]
    congr 1
    exact (List.map_congr_left fun n _ => String.ofList_toList).trans (List.map_id ns)

end Path.Inside

/-! ## The deepest owner -/

/-- The owner of a directory among others: the deepest one at or around it. -/
structure IsOwner (dirs : List Path) (dir owner : Path) : Prop where
  mem : owner ∈ dirs
  startsWith : dir.startsWith owner = true
  deepest : ∀ d ∈ dirs, dir.startsWith d = true →
    d.components.length ≤ owner.components.length

/-- What is loaded are the namespaces of these directories. -/
def Registry.LoadsAll (r : Registry) (root : Path) (dirs : List Path) : Prop :=
  ∀ id, id ∈ r.namespaces ↔ ∃ d ∈ dirs, Namespace.ofDirectory d root = id

/-- The directories with a route are these ones. -/
def Registry.RoutesAll (r : Registry) (dirs : List Path) : Prop :=
  ∀ k, r.routes.contains k = true ↔ ∃ d ∈ dirs, d.components = k.components

theorem Registry.loadsAll_registerAll {r : Registry} (h : r.namespaces = []) (root : Path)
    (dirs : List Path) :
    (r.registerAll (dirs.map fun d => .loaded (Namespace.ofDirectory d root))).LoadsAll root
      dirs := by
  intro id
  simp [mem_namespaces_registerAll, h, Registration.entry]

theorem Registry.routesAll_registerAll {r : Registry} (h : r.routes.entries = []) (dirs : List Path)
    (route : Path → String) :
    (r.registerAll (dirs.map fun d => .route d (route d))).RoutesAll dirs := by
  intro k
  rw [← has_route, has_registerAll, has, h]
  simp [Registration.entry]

section

variable {root dir : Path} {dirs : List Path} {ns : List String}
  (hdirs : ∀ d ∈ dirs, ∃ ks, root.Inside d ks) (hdir : root.Inside dir ns)
include hdirs hdir

theorem encloses_ofDirectory_iff {d : Path} (hd : d ∈ dirs) :
    Registry.encloses (Namespace.ofDirectory dir root) (Namespace.ofDirectory d root) = true ↔
      dir.startsWith d = true := by
  obtain ⟨ks, hks⟩ := hdirs d hd
  rw [hdir.ofDirectory, hks.ofDirectory, Namespace.encloses_bars_iff hks.isPart hdir.isPart,
    hdir.startsWith_iff hks]

theorem size_ofDirectory_le_iff {d d' : Path} (hd : d ∈ dirs) (hd' : d' ∈ dirs)
    (h : dir.startsWith d = true) (h' : dir.startsWith d' = true) :
    (Namespace.ofDirectory d root).utf8ByteSize ≤ (Namespace.ofDirectory d' root).utf8ByteSize ↔
      d.components.length ≤ d'.components.length := by
  obtain ⟨ks, hks⟩ := hdirs d hd
  obtain ⟨ks', hks'⟩ := hdirs d' hd'
  rw [hdir.startsWith_iff hks] at h
  rw [hdir.startsWith_iff hks'] at h'
  rw [hks.ofDirectory, hks'.ofDirectory, Namespace.size_bars_le_iff hdir.isPart h h',
    hks.length_components, hks'.length_components]
  omega

variable {r : Registry} (hloaded : r.LoadsAll root dirs)
include hloaded

/-- A namespace is found just if a directory around has one, and it is the one of the
deepest such directory. -/
theorem resolveNamespace?_owner {id : String} :
    r.resolveNamespace? (Namespace.ofDirectory dir root) = some id ↔
      ∃ owner, IsOwner dirs dir owner ∧ Namespace.ofDirectory owner root = id := by
  rw [Registry.resolveNamespace?_eq_some_iff]
  constructor
  · rintro ⟨hid, hencloses, hlongest⟩
    obtain ⟨owner, howner, rfl⟩ := (hloaded id).1 hid
    have haround := (encloses_ofDirectory_iff hdirs hdir howner).1 hencloses
    refine ⟨owner, ⟨howner, haround, fun d hd hdaround => ?_⟩, rfl⟩
    refine (size_ofDirectory_le_iff hdirs hdir hd howner hdaround haround).1 ?_
    exact hlongest _ ((hloaded _).2 ⟨d, hd, rfl⟩)
      ((encloses_ofDirectory_iff hdirs hdir hd).2 hdaround)
  · rintro ⟨owner, howner, rfl⟩
    refine ⟨(hloaded _).2 ⟨owner, howner.mem, rfl⟩,
      (encloses_ofDirectory_iff hdirs hdir howner.mem).2 howner.startsWith, ?_⟩
    intro other hother hencloses
    obtain ⟨d, hd, rfl⟩ := (hloaded other).1 hother
    have hdaround := (encloses_ofDirectory_iff hdirs hdir hd).1 hencloses
    exact (size_ofDirectory_le_iff hdirs hdir hd howner.mem hdaround howner.startsWith).2
      (howner.deepest d hd hdaround)

theorem resolveNamespace?_owner_none :
    r.resolveNamespace? (Namespace.ofDirectory dir root) = none ↔
      ∀ d ∈ dirs, dir.startsWith d = false := by
  rw [← Option.not_isSome_iff_eq_none, Registry.resolveNamespace?_isSome]
  constructor
  · intro h d hd
    refine Bool.eq_false_iff.2 fun haround => h ⟨Namespace.ofDirectory d root, ?_, ?_⟩
    · exact List.contains_iff_mem.2 ((hloaded _).2 ⟨d, hd, rfl⟩)
    · exact (encloses_ofDirectory_iff hdirs hdir hd).2 haround
  · rintro h ⟨id, hid, hencloses⟩
    obtain ⟨d, hd, rfl⟩ := (hloaded id).1 (List.contains_iff_mem.1 hid)
    exact Bool.eq_false_iff.1 (h d hd) ((encloses_ofDirectory_iff hdirs hdir hd).1 hencloses)

/-- Routes and namespaces of the same directories have the same owners. -/
theorem resolveNamespace?_eq_enclosingRoute? {r' : Registry} (hroutes : r'.RoutesAll dirs) :
    r.resolveNamespace? (Namespace.ofDirectory dir root) =
      (r'.enclosingRoute? dir).map fun e => Namespace.ofDirectory e.1 root := by
  have hregistered : ∀ d ∈ dirs, ∃ f ∈ r'.routes.entries, f.1.components = d.components := by
    intro d hd
    obtain ⟨f, hf⟩ := Option.isSome_iff_exists.1 ((hroutes d).2 ⟨d, hd, rfl⟩)
    exact ⟨f, List.mem_of_find?_eq_some hf, PathMap.components_of_entryAt? hf⟩
  have haround : ∀ d ∈ dirs, ∀ f : Path × String, f.1.components = d.components →
      (f.1.IsAround dir ↔ dir.startsWith d = true) := by
    intro d hd f hsame
    obtain ⟨ks, hks⟩ := hdirs d hd
    have hf : root.Inside f.1 ks := ⟨hsame.trans hks.components, hks.noBar⟩
    rw [hdir.isAround_iff hf, Path.startsWith, Path.startsWith, hsame]
  cases hfound : r'.enclosingRoute? dir with
  | none =>
      rw [Registry.enclosingRoute?_eq_none_iff] at hfound
      rw [Option.map_none, resolveNamespace?_owner_none hdirs hdir hloaded]
      intro d hd
      obtain ⟨f, hf, hsame⟩ := hregistered d hd
      exact Bool.eq_false_iff.2 fun h => hfound f hf ((haround d hd f hsame).2 h)
  | some e =>
      obtain ⟨he, hearound, hdeepest⟩ := Registry.enclosingRoute?_eq_some_iff.1 hfound
      have hcontains : r'.routes.contains e.1 = true := by
        rw [PathMap.contains, PathMap.mem_entries_iff.1 he]
        rfl
      obtain ⟨owner, howner, hsame⟩ := (hroutes e.1).1 hcontains
      rw [Option.map_some, resolveNamespace?_owner hdirs hdir hloaded]
      refine ⟨owner, ⟨howner, (haround owner howner e hsame.symm).1 hearound, fun d hd h => ?_⟩, ?_⟩
      · obtain ⟨f, hf, hfd⟩ := hregistered d hd
        have hle := hdeepest f hf ((haround d hd f hfd).2 h)
        rwa [hfd, ← hsame] at hle
      · obtain ⟨ks, hks⟩ := hdirs owner howner
        have hks' : root.Inside e.1 ks := ⟨hsame.symm.trans hks.components, hks.noBar⟩
        rw [hks'.ofDirectory, hks.ofDirectory]

end

theorem NamespaceRef.resolve_eq_ok_iff {r : Registry} {file root : Path} {globals : List String}
    {ref : NamespaceRef} :
    resolve r file root globals = .ok ref ↔
      ∃ own, r.resolveNamespace? (Namespace.ofDirectory (RoutePath.directoryOf file) root) = some own ∧
        ref = if globals.isEmpty then .single own
          else .chain (own :: globals.filter (· != own)) := by
  rw [resolve]
  constructor
  · intro h
    split at h
    · cases h
    · next own hown =>
        refine ⟨own, hown, ?_⟩
        split at h
        · next hnone => rw [if_pos hnone, Except.ok.inj h]
        · next hsome => rw [if_neg hsome, Except.ok.inj h]
  · rintro ⟨own, hown, rfl⟩
    rw [hown]
    dsimp only
    split <;> rfl

theorem NamespaceRef.resolve_eq_error_iff {r : Registry} {file root : Path}
    {globals : List String} {e : MacroError} :
    resolve r file root globals = .error e ↔
      r.resolveNamespace? (Namespace.ofDirectory (RoutePath.directoryOf file) root) = none ∧
        e = .namespaceNotLoaded (Namespace.ofDirectory (RoutePath.directoryOf file) root) := by
  rw [resolve]
  constructor
  · intro h
    split at h
    · next hnone => exact ⟨hnone, (Except.error.inj h).symm⟩
    · split at h <;> cases h
  · rintro ⟨hnone, rfl⟩
    rw [hnone]

/-- A module's texts are looked up in the namespace of the deepest directory around the
module that has one, and after that in the global ones; without such a directory there
is an error. The directory is the one that would own the module if the same directories
had routes. -/
theorem resolve_deepest_owner {root file : Path} {dirs : List Path} {ns : List String}
    {r : Registry} (hdirs : ∀ d ∈ dirs, ∃ ks, root.Inside d ks) (hfile : root.Inside file ns)
    (hbelow : ns ≠ []) (hloaded : r.LoadsAll root dirs) (globals : List String) :
    let dir := RoutePath.directoryOf file
    (∀ d ∈ dirs, ∀ d' ∈ dirs, Namespace.ofDirectory d root = Namespace.ofDirectory d' root →
      d.components = d'.components) ∧
    (∀ ref, NamespaceRef.resolve r file root globals = .ok ref ↔
      ∃ owner, IsOwner dirs dir owner ∧
        ref = let own := Namespace.ofDirectory owner root
          if globals.isEmpty then .single own else .chain (own :: globals.filter (· != own))) ∧
    (∀ e, NamespaceRef.resolve r file root globals = .error e ↔
      (∀ d ∈ dirs, dir.startsWith d = false) ∧
        e = .namespaceNotLoaded (Namespace.ofDirectory dir root)) ∧
    ∀ r' : Registry, r'.RoutesAll dirs →
      r.resolveNamespace? (Namespace.ofDirectory dir root) =
        (r'.enclosingRoute? dir).map fun e => Namespace.ofDirectory e.1 root := by
  intro dir
  obtain ⟨ms, m, rfl⟩ : ∃ ms m, ns = ms ++ [m] :=
    ⟨_, _, (List.dropLast_append_getLast hbelow).symm⟩
  have hdir : root.Inside dir ms := hfile.directoryOf
  refine ⟨fun d hd d' hd' hsame => ?_, fun ref => ?_, fun e => ?_, fun r' hroutes => ?_⟩
  · obtain ⟨ks, hks⟩ := hdirs d hd
    obtain ⟨ks', hks'⟩ := hdirs d' hd'
    rw [hks.ofDirectory, hks'.ofDirectory] at hsame
    exact (hks.components_eq_iff hks').2 (Namespace.bars_inj hks.isPart hks'.isPart hsame)
  · rw [NamespaceRef.resolve_eq_ok_iff]
    constructor
    · rintro ⟨own, hown, rfl⟩
      obtain ⟨owner, howner, rfl⟩ := (resolveNamespace?_owner hdirs hdir hloaded).1 hown
      exact ⟨owner, howner, rfl⟩
    · rintro ⟨owner, howner, rfl⟩
      exact ⟨_, (resolveNamespace?_owner hdirs hdir hloaded).2 ⟨owner, howner, rfl⟩, rfl⟩
  · rw [NamespaceRef.resolve_eq_error_iff, resolveNamespace?_owner_none hdirs hdir hloaded]
  · exact resolveNamespace?_eq_enclosingRoute? hdirs hdir hloaded hroutes

/-- A name that starts with the name of an owner makes no owner of it. -/
theorem resolve_deepest_owner_beside :
    let root : Path := ⟨"/p"⟩
    let dirs : List Path := [⟨"/p"⟩, ⟨"/p/src/"⟩, ⟨"/p/src/a"⟩]
    let r := ({} : Registry).registerAll (dirs.map fun d => .loaded (Namespace.ofDirectory d root))
    let r' := ({} : Registry).registerAll (dirs.map fun d => .route d "/")
    (∀ d ∈ dirs, ∃ ks, root.Inside d ks) ∧ root.Inside ⟨"/p/src/ab/x.ts"⟩ ["src", "ab", "x.ts"] ∧
      r.LoadsAll root dirs ∧ r'.RoutesAll dirs ∧
      NamespaceRef.resolve r ⟨"/p/src/ab/x.ts"⟩ root ["src", "common"] =
        .ok (.chain ["src", "common"]) := by
  intro root dirs r r'
  have hdirs : ∀ d ∈ dirs, ∃ ks, root.Inside d ks := by
    simp only [dirs, List.forall_mem_cons]
    exact ⟨⟨[], by decide, by decide⟩, ⟨["src"], by decide, by decide⟩,
      ⟨["src", "a"], by decide, by decide⟩, fun _ h => absurd h List.not_mem_nil⟩
  have hfile : root.Inside ⟨"/p/src/ab/x.ts"⟩ ["src", "ab", "x.ts"] := ⟨by decide, by decide⟩
  have hloaded : r.LoadsAll root dirs := Registry.loadsAll_registerAll rfl root dirs
  refine ⟨hdirs, hfile, hloaded, Registry.routesAll_registerAll rfl dirs _, ?_⟩
  have howner : IsOwner dirs (RoutePath.directoryOf ⟨"/p/src/ab/x.ts"⟩) ⟨"/p/src/"⟩ :=
    ⟨by decide, by decide, by decide⟩
  have hfound := (resolve_deepest_owner hdirs hfile (by decide) hloaded ["src", "common"]).2.1
  exact (hfound _).2 ⟨_, howner, by decide⟩

end SiteMacros
