import Mathlib.Algebra.Order.BigOperators.Group.List
import Mathlib.Algebra.Order.Ring.Nat
import Mathlib.Data.List.Dedup
import SiteMacros.Proofs.Destinations

/-!
# When builds and removals leave the sources alone

A build and a removal of the output tree leave every source file as it is, in every
file tree, exactly if the destinations of the two trees do not overlap
(`keepsSources_iff`). The one direction is what is known of the steps: they change
nothing outside the destination of the output tree. For the other there is a file tree
in which both roots are found and every directory has a file, so that the removal of
the output tree takes a source file with it.

Accepting a configuration is about the texts of the directories and not about where
they lead. For directories that are written as names with slashes between them it does
keep the output tree out of the sources, though not the sources out of the output
tree. With a dot in the right place even the sources themselves are accepted as the
output tree (`clean_removes_sources`).
-/

namespace SiteMacros

/-! ## A tree in which every path is found -/

namespace FileTree

/-- Directories of all the names, so many levels deep, each with a file. -/
def bushy (names : List String) (leaf : String) : Nat → FileTree
  | 0 => .dir [(leaf, .file "")]
  | n + 1 => .dir ((leaf, .file "") :: names.map fun name => (name, bushy names leaf n))

/-- The names may be put into one directory. -/
structure Names (names : List String) (leaf : String) : Prop where
  areNames : ∀ n ∈ leaf :: names, Path.IsName n
  distinct : (leaf :: names).Nodup

section

variable {names : List String} {leaf : String}

theorem map_fst_bushy (names : List String) (leaf : String) (n : Nat) :
    ((leaf, file "") :: names.map fun name => (name, bushy names leaf n)).map (·.1) =
      leaf :: names := by
  rw [List.map_cons, List.map_map]
  exact congrArg (List.cons leaf) (List.map_id' names)

theorem bushy_sound (h : Names names leaf) (n : Nat) : (bushy names leaf n).Sound := by
  induction n with
  | zero => exact sound_singleton (h.areNames leaf List.mem_cons_self) (sound_file "")
  | succ n ih =>
      refine sound_dir _ (map_fst_bushy names leaf n) h.areNames h.distinct ?_
      rw [List.forall_mem_cons]
      refine ⟨sound_file "", fun e he => ?_⟩
      obtain ⟨name, -, rfl⟩ := List.mem_map.1 he
      exact ih

theorem get?_bushy (h : Names names leaf) {ns : List String} (hns : ∀ n ∈ ns, n ∈ names) {d : Nat}
    (hd : ns.length ≤ d) : (bushy names leaf d).get? ns = some (bushy names leaf (d - ns.length)) := by
  induction ns generalizing d with
  | nil => rfl
  | cons n ns ih =>
      obtain ⟨hn, hns⟩ := List.forall_mem_cons.1 hns
      obtain ⟨d, rfl⟩ := Nat.exists_eq_add_one_of_ne_zero (Nat.ne_of_gt (Nat.lt_of_lt_of_le
        (Nat.succ_pos ns.length) hd))
      have hchild : (bushy names leaf (d + 1)).child? n = some (bushy names leaf d) := by
        refine lookup_of_mem ?_ (List.mem_cons_of_mem _ (List.mem_map.2 ⟨n, hn, rfl⟩))
        exact (map_fst_bushy names leaf d).symm ▸ h.distinct
      rw [List.length_cons] at hd ⊢
      rw [get?, hchild]
      dsimp only
      rw [ih hns (by omega), Nat.add_sub_add_right]

theorem get?_bushy_dir (h : Names names leaf) {ns : List String} (hns : ∀ n ∈ ns, n ∈ names)
    {d : Nat} (hd : ns.length ≤ d) : ∃ es, (bushy names leaf d).get? ns = some (.dir es) := by
  rw [get?_bushy h hns hd]
  cases d - ns.length <;> exact ⟨_, rfl⟩

theorem textAt?_bushy (h : Names names leaf) {ns : List String} (hns : ∀ n ∈ ns, n ∈ names)
    {d : Nat} (hd : ns.length ≤ d) : (bushy names leaf d).textAt? (ns ++ [leaf]) = some "" := by
  rw [textAt?_eq_some, get?_append, get?_bushy h hns hd, Option.bind_some, get?]
  have hleaf : (bushy names leaf (d - ns.length)).child? leaf = some (.file "") := by
    cases d - ns.length <;> exact List.lookup_cons_self
  rw [hleaf]
  rfl

/-- Every walk that is not too long comes to an end. -/
theorem walk_bushy (h : Names names leaf) {d : Nat} (pieces : List String) :
    ∀ here, (∀ q ∈ pieces, ∀ c, stepOf q = some (.name c) → c ∈ names) →
      (∀ n ∈ here, n ∈ names) → here.length + pieces.length ≤ d →
      ∃ dest, (bushy names leaf d).walk here pieces = .ok dest ∧ (∀ n ∈ dest, n ∈ names) ∧
        dest.length ≤ here.length + pieces.length := by
  induction pieces with
  | nil => exact fun here _ hhere _ => ⟨here, rfl, hhere, Nat.le_refl _⟩
  | cons q qs ih =>
      intro here hpieces hhere hlength
      obtain ⟨hq, hqs⟩ := List.forall_mem_cons.1 hpieces
      rw [List.length_cons] at hlength ⊢
      obtain ⟨es, hes⟩ := get?_bushy_dir (d := d) h hhere (by omega)
      rw [walk, hes]
      dsimp only
      split
      · obtain ⟨dest, hwalk, hdest, hle⟩ := ih here hqs hhere (by omega)
        exact ⟨dest, hwalk, hdest, by omega⟩
      · next hcounts =>
          simp only [Bool.or_eq_true, decide_eq_true_eq, not_or] at hcounts
          split
          · have hlast : here.dropLast.length ≤ here.length := (List.dropLast_sublist here).length_le
            obtain ⟨dest, hwalk, hdest, hle⟩ := ih here.dropLast hqs
              (fun n hn => hhere n (List.dropLast_subset here hn)) (by omega)
            exact ⟨dest, hwalk, hdest, by omega⟩
          · next hup =>
              have hname := hq q (stepOf_of_name hcounts.1 hcounts.2 hup)
              have hnames : ∀ n ∈ here ++ [q], n ∈ names := by
                intro n hn
                rcases List.mem_append.1 hn with hn | hn
                · exact hhere n hn
                · exact List.mem_singleton.1 hn ▸ hname
              have hstep : (here ++ [q]).length = here.length + 1 := by simp
              obtain ⟨es', hes'⟩ := get?_bushy_dir (d := d) h hnames (by omega)
              rw [hes']
              obtain ⟨dest, hwalk, hdest, hle⟩ := ih (here ++ [q]) hqs hnames (by omega)
              exact ⟨dest, hwalk, hdest, by omega⟩

theorem address_bushy (h : Names names leaf) {p : Path} (hp : p.isAbsolute = true) {d : Nat}
    (hpieces : ∀ q ∈ steps p, ∀ c, stepOf q = some (.name c) → c ∈ names)
    (hlength : (steps p).length ≤ d) :
    (bushy names leaf d).address p = .ok p.destination ∧
      (∀ n ∈ p.destination, n ∈ names) ∧ p.destination.length ≤ d := by
  obtain ⟨dest, hwalk, hdest, hle⟩ := walk_bushy h (steps p) [] hpieces
    (fun n hn => absurd hn List.not_mem_nil) (by simpa using hlength)
  have haddress : (bushy names leaf d).address p = .ok dest := by
    rw [address]
    split
    · next hnil =>
        obtain ⟨cs, hcs⟩ := p.isAbsolute_iff.1 hp
        rw [steps] at hnil
        split at hnil
        · next hempty =>
            rw [String.isEmpty_iff.1 hempty] at hcs
            cases hcs
        · exact absurd (List.map_eq_nil_iff.1 hnil) (Text.pieces_ne_nil _ _)
    · exact hwalk
  have heq := address_eq_destination hp haddress
  rw [List.length_nil, Nat.zero_add] at hle
  exact ⟨heq ▸ haddress, heq ▸ hdest, heq ▸ Nat.le_trans hle hlength⟩

end

/-- The names in a path. -/
def namesIn (p : Path) : List String :=
  (steps p).filterMap fun q =>
    match stepOf q with
    | some (.name n) => some n
    | _ => none

theorem mem_namesIn {p : Path} {n : String} :
    n ∈ namesIn p ↔ ∃ q ∈ steps p, stepOf q = some (.name n) := by
  rw [namesIn, List.mem_filterMap]
  constructor
  · rintro ⟨q, hq, h⟩
    split at h
    · next hstep =>
        cases h
        exact ⟨q, hq, hstep⟩
    · exact nomatch h
  · rintro ⟨q, hq, h⟩
    exact ⟨q, hq, by rw [h]⟩

theorem isName_of_mem_namesIn {p : Path} {n : String} (h : n ∈ namesIn p) : Path.IsName n := by
  obtain ⟨q, hq, hstep⟩ := mem_namesIn.1 h
  obtain ⟨hname, hempty, hdot, hup⟩ := Path.inner_snd_name hstep
  refine ⟨hempty, hdot, hup, ?_⟩
  rw [← hname, Path.inner_fst, String.ofList_toList]
  rw [steps] at hq
  split at hq
  · exact absurd hq List.not_mem_nil
  · obtain ⟨cs, hcs, rfl⟩ := List.mem_map.1 hq
    rw [String.toList_ofList]
    exact Text.sep_not_mem_pieces hcs

/-- There is always one more name. -/
theorem exists_name (taken : List String) : ∃ leaf, Path.IsName leaf ∧ leaf ∉ taken := by
  generalize hlong : (taken.map String.length).sum = n
  have hlist : (String.ofList (List.replicate (n + 3) 'x')).toList = List.replicate (n + 3) 'x' :=
    String.toList_ofList
  have hlength : (String.ofList (List.replicate (n + 3) 'x')).length = n + 3 := by
    rw [String.length_ofList, List.length_replicate]
  have hshort : ∀ s : String, s.length < 3 → String.ofList (List.replicate (n + 3) 'x') ≠ s := by
    intro s hs heq
    rw [← heq, hlength] at hs
    omega
  refine ⟨String.ofList (List.replicate (n + 3) 'x'), ⟨hshort _ (by decide), hshort _ (by decide),
    hshort _ (by decide), ?_⟩, fun hmem => ?_⟩
  · rw [hlist]
    intro hslash
    exact absurd (List.eq_of_mem_replicate hslash) (by decide)
  · have hle := List.single_le_sum (l := taken.map String.length) (by simp) _
      (List.mem_map_of_mem hmem)
    rw [hlong, hlength] at hle
    omega

/-- There is a file tree in which both paths are found, and in which every directory
that they lead to has a file that is not in a `node_modules`. -/
theorem exists_bushy {p q : Path} (hp : p.isAbsolute = true) (hq : q.isAbsolute = true) :
    ∃ (t : FileTree) (leaf : String), t.Sound ∧ leaf ≠ "node_modules" ∧
      (t.address p = .ok p.destination ∧ t.textAt? (p.destination ++ [leaf]) = some "") ∧
      (t.address q = .ok q.destination ∧ t.textAt? (q.destination ++ [leaf]) = some "") := by
  obtain ⟨leaf, hleaf, hfresh⟩ := exists_name ("node_modules" :: (namesIn p ++ namesIn q))
  rw [List.mem_cons, not_or] at hfresh
  have h : Names (namesIn p ++ namesIn q).dedup leaf := by
    refine ⟨List.forall_mem_cons.2 ⟨hleaf, fun n hn => ?_⟩, List.nodup_cons.2 ⟨?_, List.nodup_dedup _⟩⟩
    · rcases List.mem_append.1 (List.mem_dedup.1 hn) with hn | hn
      · exact isName_of_mem_namesIn hn
      · exact isName_of_mem_namesIn hn
    · exact fun hmem => hfresh.2 (List.mem_dedup.1 hmem)
  have hfound : ∀ r : Path, r.isAbsolute = true → namesIn r ⊆ namesIn p ++ namesIn q →
      (steps r).length ≤ (steps p).length + (steps q).length →
      (bushy (namesIn p ++ namesIn q).dedup leaf ((steps p).length + (steps q).length)).address r =
          .ok r.destination ∧
        (bushy (namesIn p ++ namesIn q).dedup leaf ((steps p).length + (steps q).length)).textAt?
          (r.destination ++ [leaf]) = some "" := by
    intro r hr hnames hlength
    obtain ⟨haddress, hdest, hle⟩ := address_bushy h hr (fun s hs c hc =>
      List.mem_dedup.2 (hnames (mem_namesIn.2 ⟨s, hs, hc⟩))) hlength
    exact ⟨haddress, textAt?_bushy h hdest hle⟩
  exact ⟨_, leaf, bushy_sound h _, hfresh.1,
    hfound p hp (List.subset_append_left _ _) (Nat.le_add_right _ _),
    hfound q hq (List.subset_append_right _ _) (Nat.le_add_left _ _)⟩

end FileTree

/-! ## Sources that are kept -/

namespace Session

/-- Whatever files there are, a build and a removal of the output tree leave every
source file as it is. -/
def KeepsSources (s : Session) : Prop :=
  ∀ t : FileTree, t.Sound → ∀ src, t.address s.srcDir = .ok src →
    ∀ ns text, "node_modules" ∉ ns → t.textAt? (src ++ ns) = some text →
      (s.build true t).1.1.textAt? (src ++ ns) = some text ∧
        (Command.runClean s t).1.textAt? (src ++ ns) = some text

/-- The output tree is around the sources, or it is where sources may be. -/
def Overlap (src out : List String) : Prop :=
  out <+: src ∨ ∃ ks, out = src ++ ks ∧ "node_modules" ∉ ks

theorem overlap_of_leads {src out ns : List String} (h : out <+: src ++ ns)
    (hns : "node_modules" ∉ ns) : Overlap src out := by
  rcases List.prefix_or_prefix_of_prefix h (List.prefix_append src ns) with hout | ⟨ks, rfl⟩
  · exact .inl hout
  · obtain ⟨rest, hrest⟩ := h
    rw [List.append_assoc] at hrest
    refine .inr ⟨ks, rfl, fun hmem => hns ?_⟩
    rw [← List.append_cancel_left hrest]
    exact List.mem_append_left _ hmem

section

variable {s : Session} (hroot : s.root.isAbsolute = true)
include hroot

theorem keepsSources_of_not_overlap
    (h : ¬ Overlap s.srcDir.destination s.outDir.destination) : s.KeepsSources := by
  have hsrc : s.srcDir.isAbsolute = true := Path.isAbsolute_join hroot _
  have hout : s.outDir.isAbsolute = true := Path.isAbsolute_join hroot _
  intro t hsound src haddress ns text hns htext
  rw [FileTree.address_eq_destination hsrc haddress] at htext ⊢
  have hoff : ¬ s.outDir.destination <+: s.srcDir.destination ++ ns :=
    fun hleads => h (overlap_of_leads hleads hns)
  exact ⟨(build_within hsrc hout hsound hoff).trans htext,
    (Command.runClean_within hout t hoff).trans htext⟩

/-- The removal of the output tree takes a source file with it. -/
theorem not_keepsSources_of_overlap (h : Overlap s.srcDir.destination s.outDir.destination) :
    ¬ s.KeepsSources := by
  have hsrc : s.srcDir.isAbsolute = true := Path.isAbsolute_join hroot _
  have hout : s.outDir.isAbsolute = true := Path.isAbsolute_join hroot _
  obtain ⟨t, leaf, hsound, hleaf, ⟨haddress, hsource⟩, ⟨houtput, hinside⟩⟩ :=
    FileTree.exists_bushy hsrc hout
  intro hkeeps
  -- a source file at or below the destination of the output tree
  obtain ⟨ns, hns, hbelow, htext⟩ : ∃ ns, "node_modules" ∉ ns ∧
      s.outDir.destination <+: s.srcDir.destination ++ ns ∧
      t.textAt? (s.srcDir.destination ++ ns) = some "" := by
    rcases h with habove | ⟨ks, hks, hmodules⟩
    · refine ⟨[leaf], ?_, habove.trans (List.prefix_append _ _), hsource⟩
      rw [List.mem_singleton]
      exact hleaf.symm
    · refine ⟨ks ++ [leaf], ?_, ?_, ?_⟩
      · rw [List.mem_append, List.mem_singleton, not_or]
        exact ⟨hmodules, hleaf.symm⟩
      · rw [← List.append_assoc, ← hks]
        exact List.prefix_append _ _
      · rw [← List.append_assoc, ← hks]
        exact hinside
  have hkept := (hkeeps t hsound _ haddress ns "" hns htext).2
  obtain ⟨es, hes⟩ := FileTree.exists_dir_of_get?_append (List.cons_ne_nil leaf [])
    (FileTree.textAt?_eq_some.1 hinside)
  have hfind : t.find s.outDir = .ok (.dir es) := by
    rw [FileTree.find, houtput]
    dsimp only [bind, Except.bind]
    rw [hes]
  have hdir : t.isDir s.outDir = true := by rw [FileTree.isDir, hfind]
  have hexists : t.exists? s.outDir = true := by rw [FileTree.exists?, hfind]
  have hremoved := (FileTree.textAt?_removeTree_destination hout t _).2 hdir hbelow
  rw [Command.runClean, if_pos hexists] at hkept
  split at hkept
  · next t' hrun =>
      rw [hrun] at hremoved
      cases hremoved.symm.trans hkept
  · next t' fault hrun =>
      rw [hrun] at hremoved
      cases hremoved.symm.trans hkept

end

/-! ## Accepted directories -/

/-- Names with slashes between them come apart into the names. -/
theorem pieces_names {names : List String} (hne : names ≠ []) (h : ∀ n ∈ names, Path.IsName n) :
    Text.pieces '/' ("/".intercalate names).toList = names.map String.toList :=
  Text.pieces_intercalate_toList rfl hne fun n hn => (h n hn).noSlash

theorem nil_not_mem_names {names : List String} (h : ∀ n ∈ names, Path.IsName n) :
    [] ∉ names.map String.toList := by
  intro hmem
  obtain ⟨n, hn, hnil⟩ := List.mem_map.1 hmem
  exact (h n hn).ne_empty (String.toList_eq_nil_iff.1 hnil)

/-- There are no slashes at the ends. -/
theorem trim_names {names : List String} (hne : names ≠ []) (h : ∀ n ∈ names, Path.IsName n) :
    Text.trim '/' ("/".intercalate names) = "/".intercalate names := by
  have hpieces := pieces_names hne h
  have hnil := nil_not_mem_names h
  generalize "/".intercalate names = text at hpieces
  have hstart : text.toList.dropWhile (· == '/') = text.toList := by
    cases hcs : text.toList with
    | nil => rfl
    | cons c cs =>
        refine List.dropWhile_cons_of_neg fun hc => hnil ?_
        rw [← hpieces, hcs, eq_of_beq hc, Text.pieces, if_pos rfl]
        exact List.mem_cons_self
  have hend : Text.dropEndWhile (· == '/') text.toList = text.toList := by
    rcases List.eq_nil_or_concat text.toList with hcs | ⟨cs, c, hcs⟩
    · rw [hcs]
      rfl
    · rw [List.concat_eq_append] at hcs
      have hc : ¬ (c == '/') = true := fun hc => hnil (by
        rw [← hpieces, hcs, eq_of_beq hc, Text.pieces_append_sep]
        exact List.mem_append_right _ List.mem_cons_self)
      have hkept : (c :: cs.reverse).dropWhile (· == '/') = c :: cs.reverse :=
        List.dropWhile_cons_of_neg hc
      rw [Text.dropEndWhile, hcs, List.reverse_append, List.reverse_singleton,
        List.singleton_append, hkept, List.reverse_cons, List.reverse_reverse]
  rw [Text.trim, hstart, hend, String.ofList_toList]

/-- Of directories that are written as names, one in the other is not accepted as the
output tree. -/
theorem names_of_accepted {c : Configuration} (haccepted : c.validate = .ok ())
    {dirs outs : List String} (hdirs : ∀ n ∈ dirs, Path.IsName n)
    (houts : ∀ n ∈ outs, Path.IsName n) (hdir : c.sources.dir = "/".intercalate dirs)
    (hout : c.sources.outDir = "/".intercalate outs) :
    dirs ≠ [] ∧ outs ≠ [] ∧ ¬ dirs <+: outs := by
  rw [Configuration.validate, hdir, hout] at haccepted
  split at haccepted
  · exact nomatch haccepted
  · next hsource =>
      split at haccepted
      · exact nomatch haccepted
      · next hapart =>
          simp only [Bool.or_eq_true, decide_eq_true_eq, not_or] at hsource hapart
          have hdirsne : dirs ≠ [] := by
            rintro rfl
            exact hsource.1 (by decide)
          have houtsne : outs ≠ [] := by
            rintro rfl
            exact hapart.1.1 (by decide)
          rw [trim_names hdirsne hdirs, trim_names houtsne houts] at hapart
          refine ⟨hdirsne, houtsne, ?_⟩
          rintro ⟨rest, rfl⟩
          by_cases hrest : rest = []
          · exact hapart.1.2 (by rw [hrest, List.append_nil])
          · refine hapart.2 ?_
            rw [String.intercalate_append_of_ne_nil hdirsne hrest, Text.startsWith,
              List.isPrefixOf_iff_prefix]
            simp only [String.toList_append]
            exact List.prefix_append _ _

/-- Names with slashes between them are a relative path through the names. -/
theorem steps_intercalate {names : List String} (hne : names ≠ [])
    (h : ∀ n ∈ names, Path.IsName n) :
    (Path.mk ("/".intercalate names)).isAbsolute = false ∧
      ((Text.pieces '/' ("/".intercalate names).toList).map Path.pieces.inner).filterMap (·.2) =
        names.map .name := by
  have hpieces := pieces_names hne h
  refine ⟨?_, ?_⟩
  · rw [Bool.eq_false_iff, ne_eq, Path.isAbsolute_iff]
    rintro ⟨cs, hcs⟩
    rw [hcs, Text.pieces, if_pos rfl] at hpieces
    exact nil_not_mem_names h (hpieces ▸ List.mem_cons_self)
  · have hsteps : ∀ n ∈ names, (Path.pieces.inner n.toList).2 = some (.name n) := by
      intro n hn
      have hn := h n hn
      simp [Path.pieces.inner, hn.ne_empty, hn.ne_here, hn.ne_parent]
    rw [hpieces, List.map_map, List.filterMap_map, ← List.filterMap_eq_map]
    exact List.filterMap_congr hsteps

theorem destination_join_intercalate {p : Path} (hp : p.isAbsolute = true) {names : List String}
    (hne : names ≠ []) (h : ∀ n ∈ names, Path.IsName n) :
    (p.join ("/".intercalate names)).destination = p.destination ++ names :=
  Path.destination_join_names hp (steps_intercalate hne h).1 (steps_intercalate hne h).2

theorem overlap_append_iff {base dirs outs : List String} (h : ¬ dirs <+: outs) :
    Overlap (base ++ dirs) (base ++ outs) ↔ outs <+: dirs := by
  rw [Overlap, List.prefix_append_right_inj]
  constructor
  · rintro (habove | ⟨ks, hks, -⟩)
    · exact habove
    · rw [List.append_assoc] at hks
      exact absurd ⟨ks, (List.append_cancel_left hks).symm⟩ h
  · exact .inl

/-- With an accepted configuration the sources are kept if and only if the destinations
of the output tree and of the sources do not overlap. If both are written as names, that
is: if the output tree is not around the sources. -/
theorem keepsSources_iff {s : Session} (hroot : s.root.isAbsolute = true)
    (haccepted : s.configuration.validate = .ok ()) :
    (s.KeepsSources ↔ ¬ Overlap s.srcDir.destination s.outDir.destination) ∧
      ∀ dirs outs : List String, (∀ n ∈ dirs, Path.IsName n) → (∀ n ∈ outs, Path.IsName n) →
        s.configuration.sources.dir = "/".intercalate dirs →
        s.configuration.sources.outDir = "/".intercalate outs →
        (s.KeepsSources ↔ ¬ outs <+: dirs) := by
  have hkeeps : s.KeepsSources ↔ ¬ Overlap s.srcDir.destination s.outDir.destination :=
    ⟨fun hkeeps hoverlap => not_keepsSources_of_overlap hroot hoverlap hkeeps,
      keepsSources_of_not_overlap hroot⟩
  refine ⟨hkeeps, fun dirs outs hdirs houts hdir hout => ?_⟩
  obtain ⟨hdirsne, houtsne, hapart⟩ := names_of_accepted haccepted hdirs houts hdir hout
  rw [hkeeps, srcDir, outDir, hdir, hout, destination_join_intercalate hroot hdirsne hdirs,
    destination_join_intercalate hroot houtsne houts, overlap_append_iff hapart]

theorem keepsSources_default : (Session.mk ⟨"/p"⟩ {} {} {}).KeepsSources := by
  have hkept := (@keepsSources_iff (Session.mk ⟨"/p"⟩ {} {} {}) (by decide) (by decide +kernel)).2
    ["src"] [".pagemacro", "out"] (by decide) (by decide) rfl rfl
  exact hkept.2 (by decide)

/-- The sources in another spelling are accepted as the output tree, and its removal
removes them. -/
theorem clean_removes_sources :
    ¬ ∀ s : Session, s.root.isAbsolute = true → s.configuration.validate = .ok () →
      s.KeepsSources := by
  intro hall
  have hkeeps := hall ⟨⟨"/p"⟩, { sources := { outDir := "./src" } }, {}, {}⟩ (by decide +kernel)
    (by decide +kernel)
  have hkept := (hkeeps (.dir [("p", .dir [("src", .dir [("App.tsx", .file "app")])])])
    (by decide +kernel) ["p", "src"] (by decide +kernel) ["App.tsx"] "app" (by decide)
    (by decide +kernel)).2
  exact absurd hkept (by decide +kernel)

end Session

end SiteMacros
