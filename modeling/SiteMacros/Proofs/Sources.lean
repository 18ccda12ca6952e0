import SiteMacros.Proofs.FileTexts

/-!
# The source files

The source files of a session are the files below the root of the sources, but for
those in a directory with the name `node_modules` (`mem_sourceFiles_iff`). Each of
them is listed once, by a path that is the root joined with names.

That holds if the trees of the sources and of the output lie apart (`Apart`), and
if the entries of the directories have proper names, no two in one directory the
same (`Sound`), as they have in any file system.
-/

namespace SiteMacros

namespace FileTree

mutual

/-- What holds of files, and of a directory if it holds of all that is in it, holds
of every node. -/
theorem inductOn {motive : FileTree → Prop} (leaf : ∀ text, motive (.file text))
    (node : ∀ es : List (String × FileTree), (∀ e ∈ es, motive e.2) → motive (.dir es)) :
    (t : FileTree) → motive t
  | .file text => leaf text
  | .dir es => node es (inductOnEntries leaf node es)

theorem inductOnEntries {motive : FileTree → Prop} (leaf : ∀ text, motive (.file text))
    (node : ∀ es : List (String × FileTree), (∀ e ∈ es, motive e.2) → motive (.dir es)) :
    (es : List (String × FileTree)) → ∀ e ∈ es, motive e.2
  | [] => fun _ h => absurd h List.not_mem_nil
  | e :: es => fun _ h =>
      (List.mem_cons.1 h).elim (· ▸ inductOn leaf node e.2) (inductOnEntries leaf node es _)

end

/-- The entries of every directory have names of their own. -/
structure Sound (t : FileTree) : Prop where
  names : ∀ ns es, t.get? ns = some (.dir es) → ∀ e ∈ es, Path.IsName e.1
  distinct : ∀ ns es, t.get? ns = some (.dir es) → (es.map (·.1)).Nodup

theorem Sound.get? {t node : FileTree} (h : t.Sound) {ns : List String}
    (hnode : t.get? ns = some node) : node.Sound := by
  have hbelow : ∀ ms, t.get? (ns ++ ms) = node.get? ms := by
    intro ms
    rw [get?_append, hnode]
    rfl
  exact ⟨fun ms es hes => h.names (ns ++ ms) es ((hbelow ms).trans hes),
    fun ms es hes => h.distinct (ns ++ ms) es ((hbelow ms).trans hes)⟩

/-- What a path leads to is as sound as the whole. -/
theorem Sound.find {t node : FileTree} (h : t.Sound) {p : Path} (hnode : t.find p = .ok node) :
    node.Sound := by
  obtain ⟨address, -, hget⟩ := Expansion.exists_of_bind_eq_ok hnode
  split at hget
  · next found hfound =>
      cases hget
      exact h.get? hfound
  · cases hget

theorem lookup_of_mem {es : List (String × FileTree)} (h : (es.map (·.1)).Nodup) {n : String}
    {c : FileTree} (hmem : (n, c) ∈ es) : es.lookup n = some c := by
  induction es with
  | nil => exact absurd hmem List.not_mem_nil
  | cons e es ih =>
      obtain ⟨hnot, hes⟩ := List.nodup_cons.1 h
      rw [List.lookup_cons]
      rcases List.mem_cons.1 hmem with rfl | hmem
      · rw [beq_self_eq_true]
      · have hne : n ≠ e.1 := fun heq => hnot (List.mem_map.2 ⟨(n, c), hmem, heq⟩)
        rw [beq_eq_false_iff_ne.2 hne]
        exact ih hes hmem

theorem mem_of_lookup {es : List (String × FileTree)} {n : String} {c : FileTree}
    (h : es.lookup n = some c) : (n, c) ∈ es := by
  induction es with
  | nil => exact nomatch h
  | cons e es ih =>
      rw [List.lookup_cons] at h
      cases hn : n == e.1 with
      | true =>
          rw [hn] at h
          rw [eq_of_beq hn, ← Option.some.inj h]
          exact List.mem_cons_self
      | false =>
          rw [hn] at h
          exact List.mem_cons_of_mem e (ih h)

theorem Sound.child {es : List (String × FileTree)} (h : (dir es).Sound) {n : String}
    {c : FileTree} (hmem : (n, c) ∈ es) : c.Sound := by
  have hnode : (dir es).get? [n] = some c := by
    rw [FileTree.get?, child?_dir, lookup_of_mem (h.distinct [] es rfl) hmem]
    rfl
  exact h.get? hnode

theorem sound_file (text : String) : (file text).Sound where
  names ns _ h := by cases ns <;> exact nomatch h
  distinct ns _ h := by cases ns <;> exact nomatch h

theorem sound_dir {es : List (String × FileTree)} (ns : List String) (hns : es.map (·.1) = ns)
    (hnames : ∀ n ∈ ns, Path.IsName n) (hdistinct : ns.Nodup) (hes : ∀ e ∈ es, e.2.Sound) :
    (dir es).Sound := by
  subst hns
  have hbelow : ∀ n ns node, (dir es).get? (n :: ns) = some node →
      ∃ c : FileTree, c.Sound ∧ c.get? ns = some node := by
    intro n ns node h
    rw [FileTree.get?, child?_dir] at h
    cases hc : es.lookup n with
    | none =>
        rw [hc] at h
        cases h
    | some c =>
        rw [hc] at h
        exact ⟨c, hes (n, c) (mem_of_lookup hc), h⟩
  constructor
  · intro ns fs h
    cases ns with
    | nil =>
        cases h
        exact fun e he => hnames e.1 (List.mem_map_of_mem he)
    | cons n ns =>
        obtain ⟨c, hc, h⟩ := hbelow n ns _ h
        exact hc.names ns fs h
  · intro ns fs h
    cases ns with
    | nil =>
        cases h
        exact hdistinct
    | cons n ns =>
        obtain ⟨c, hc, h⟩ := hbelow n ns _ h
        exact hc.distinct ns fs h

theorem sound_singleton {n : String} (hn : Path.IsName n) {t : FileTree} (ht : t.Sound) :
    (dir [(n, t)]).Sound := by
  refine sound_dir [n] rfl ?_ (List.pairwise_singleton _ n) fun e he => ?_
  · rwa [List.forall_mem_singleton]
  · rwa [List.mem_singleton.1 he]

mutual

def wellNamed : FileTree → Bool
  | .file _ => true
  | .dir es => decide (es.map (·.1)).Nodup && wellNamedIn es

def wellNamedIn : List (String × FileTree) → Bool
  | [] => true
  | (n, node) :: rest => decide (Path.IsName n) && node.wellNamed && wellNamedIn rest

end

theorem wellNamedIn_iff {es : List (String × FileTree)} :
    wellNamedIn es = true ↔ ∀ e ∈ es, Path.IsName e.1 ∧ e.2.wellNamed = true := by
  induction es with
  | nil => exact iff_of_true rfl fun _ h => absurd h List.not_mem_nil
  | cons e es ih =>
      rw [wellNamedIn, Bool.and_eq_true, Bool.and_eq_true, decide_eq_true_iff, ih,
        List.forall_mem_cons]

theorem wellNamed_iff (t : FileTree) : t.wellNamed = true ↔ t.Sound := by
  induction t using inductOn with
  | leaf text => exact iff_of_true rfl (sound_file text)
  | node es ih =>
      rw [wellNamed, Bool.and_eq_true, decide_eq_true_iff, wellNamedIn_iff]
      constructor
      · rintro ⟨hdistinct, hall⟩
        refine sound_dir _ rfl (fun n hn => ?_) hdistinct fun e he => ?_
        · obtain ⟨e, he, rfl⟩ := List.mem_map.1 hn
          exact (hall e he).1
        · exact (ih e he).1 (hall e he).2
      · intro h
        refine ⟨h.distinct [] es rfl, fun e he => ⟨h.names [] es rfl e he, ?_⟩⟩
        exact (ih e he).2 (h.child he)

instance (t : FileTree) : Decidable t.Sound :=
  decidable_of_iff _ (wellNamed_iff t)

mutual

/-- The addresses of the files at a node that are not in a `node_modules`. -/
def addresses : FileTree → List (List String)
  | .file _ => [[]]
  | .dir es => addressesIn es

/-- The addresses of the files below entries. -/
def addressesIn : List (String × FileTree) → List (List String)
  | [] => []
  | (n, node) :: rest =>
      (if n = "node_modules" then [] else node.addresses.map (n :: ·)) ++ addressesIn rest

end

theorem mem_addressesIn {es : List (String × FileTree)} {ns : List String} :
    ns ∈ addressesIn es ↔
      ∃ n c ms, (n, c) ∈ es ∧ n ≠ "node_modules" ∧ ms ∈ c.addresses ∧ ns = n :: ms := by
  induction es with
  | nil => simp [addressesIn]
  | cons e es ih =>
      obtain ⟨n, c⟩ := e
      rw [addressesIn, List.mem_append, ih]
      constructor
      · rintro (h | ⟨m, c', ms, hmem, hne, hms, rfl⟩)
        · split at h
          · exact absurd h List.not_mem_nil
          · next hne =>
              obtain ⟨ms, hms, rfl⟩ := List.mem_map.1 h
              exact ⟨n, c, ms, List.mem_cons_self, hne, hms, rfl⟩
        · exact ⟨m, c', ms, List.mem_cons_of_mem _ hmem, hne, hms, rfl⟩
      · rintro ⟨m, c', ms, hmem, hne, hms, rfl⟩
        rcases List.mem_cons.1 hmem with heq | hmem
        · obtain ⟨rfl, rfl⟩ := Prod.mk.inj heq
          refine .inl ?_
          rw [if_neg hne]
          exact List.mem_map_of_mem hms
        · exact .inr ⟨m, c', ms, hmem, hne, hms, rfl⟩

/-- The addresses are those of the files without `node_modules` in the address. -/
theorem mem_addresses_iff {t : FileTree} (h : t.Sound) {ns : List String} :
    ns ∈ t.addresses ↔ (t.textAt? ns).isSome = true ∧ "node_modules" ∉ ns := by
  induction ns generalizing t with
  | nil =>
      cases t with
      | file text => simp [addresses, textAt?, FileTree.get?]
      | dir es => simp [addresses, mem_addressesIn, textAt?, FileTree.get?]
  | cons n ns ih =>
      rw [textAt?_cons, List.mem_cons, not_or]
      cases t with
      | file text => simp [addresses, child?, entries]
      | dir es =>
          rw [addresses, mem_addressesIn, child?_dir]
          constructor
          · rintro ⟨m, c, ms, hmem, hne, hms, heq⟩
            obtain ⟨rfl, rfl⟩ := List.cons.inj heq
            rw [lookup_of_mem (h.distinct [] es rfl) hmem]
            obtain ⟨hsome, hnot⟩ := (ih (h.child hmem)).1 hms
            exact ⟨hsome, Ne.symm hne, hnot⟩
          · rintro ⟨hsome, hne, hnot⟩
            cases hlookup : es.lookup n with
            | none =>
                rw [hlookup] at hsome
                cases hsome
            | some c =>
                rw [hlookup] at hsome
                have hmem := mem_of_lookup hlookup
                exact ⟨n, c, ns, hmem, Ne.symm hne, (ih (h.child hmem)).2 ⟨hsome, hnot⟩, rfl⟩

mutual

theorem addresses_nodup : (t : FileTree) → t.Sound → t.addresses.Nodup
  | .file _, _ => List.pairwise_singleton _ _
  | .dir es, h => addressesIn_nodup es (h.distinct [] es rfl) fun _ _ hmem => h.child hmem

theorem addressesIn_nodup : (es : List (String × FileTree)) → (es.map (·.1)).Nodup →
    (∀ n c, (n, c) ∈ es → c.Sound) → (addressesIn es).Nodup
  | [], _, _ => List.Pairwise.nil
  | (n, c) :: rest, hnames, hsound => by
      obtain ⟨hnot, hrest⟩ := List.nodup_cons.1 hnames
      have hc := addresses_nodup c (hsound n c List.mem_cons_self)
      rw [addressesIn, List.nodup_append]
      refine ⟨?_, addressesIn_nodup rest hrest fun m c' hm =>
        hsound m c' (List.mem_cons_of_mem _ hm), fun ns hns ms hms heq => ?_⟩
      · split
        · exact List.Pairwise.nil
        · exact List.pairwise_map.2 (hc.imp fun hne heq => hne (List.cons.inj heq).2)
      · split at hns
        · exact absurd hns List.not_mem_nil
        · obtain ⟨ks, -, rfl⟩ := List.mem_map.1 hns
          obtain ⟨m, c', ks', hmem, -, -, rfl⟩ := mem_addressesIn.1 hms
          refine hnot (List.mem_map.2 ⟨(m, c'), hmem, ?_⟩)
          exact (List.cons.inj heq).1.symm

end

/-- The names in the address of a node are proper names. -/
theorem Sound.isName {t node : FileTree} (h : t.Sound) {ns : List String}
    (hnode : t.get? ns = some node) : ∀ n ∈ ns, Path.IsName n := by
  induction ns generalizing t with
  | nil => exact fun _ hn => absurd hn List.not_mem_nil
  | cons n ns ih =>
      cases t with
      | file text => cases hnode
      | dir es =>
          rw [FileTree.get?, child?_dir] at hnode
          split at hnode
          · next c hc =>
              have hmem := mem_of_lookup hc
              intro m hm
              rcases List.mem_cons.1 hm with rfl | hm
              · exact h.names [] es rfl _ hmem
              · exact ih (h.child hmem) hnode m hm
          · cases hnode

end FileTree

namespace Path

/-- The path joined with names. -/
def below (p : Path) (ns : List String) : Path :=
  ns.foldl Path.join p

theorem Leads.below {p : Path} {ms ns : List String} (hp : p.Leads ms)
    (hns : ∀ n ∈ ns, IsName n) :
    (p.below ns).Leads (ms ++ ns) ∧ (ns ≠ [] → (p.below ns).EndsInName) := by
  induction ns generalizing p ms with
  | nil =>
      rw [List.append_nil]
      exact ⟨hp, fun hne => absurd rfl hne⟩
  | cons n ns ih =>
      obtain ⟨hn, hns⟩ := List.forall_mem_cons.1 hns
      obtain ⟨hjoined, hend⟩ := hp.join_name hn
      obtain ⟨hleads, hends⟩ := ih hjoined hns
      rw [List.append_assoc] at hleads
      refine ⟨hleads, fun _ => ?_⟩
      cases ns with
      | nil => exact hend
      | cons m ns => exact hends (List.cons_ne_nil m ns)

end Path

namespace Session

/-- The roots of the sources and of the output lead through names, and neither is
in the other. -/
structure Apart (s : Session) (src out : List String) : Prop where
  src_leads : s.srcDir.Leads src
  out_leads : s.outDir.Leads out
  src_not_above : ¬ src <+: out
  out_not_above : ¬ out <+: src

variable {s : Session} {src out : List String}

theorem Apart.not_below (h : s.Apart src out) (ns : List String) : ¬ out <+: src ++ ns := by
  intro hout
  rcases List.prefix_or_prefix_of_prefix hout (List.prefix_append src ns) with h' | h'
  · exact h.out_not_above h'
  · exact h.src_not_above h'

theorem Apart.startsWith_outDir (h : s.Apart src out) {p : Path} {ns : List String}
    (hp : p.Leads (src ++ ns)) : p.startsWith s.outDir = false := by
  rw [Bool.eq_false_iff, ne_eq, hp.startsWith_iff h.out_leads]
  exact h.not_below ns

/-- No path below this one lies in the output tree as it is written. -/
def Unskipped (s : Session) (p : Path) : Prop :=
  ∀ ns, (∀ n ∈ ns, Path.IsName n) → (p.below ns).startsWith s.outDir = false

theorem Unskipped.join {p : Path} (h : s.Unskipped p) {n : String} (hn : Path.IsName n) :
    s.Unskipped (p.join n) :=
  fun ns hns => h (n :: ns) (List.forall_mem_cons.2 ⟨hn, hns⟩)

theorem Apart.unskipped (h : s.Apart src out) : s.Unskipped s.srcDir :=
  fun _ hns => h.startsWith_outDir (h.src_leads.below hns).1

mutual

theorem sourcesAt_eq : (t : FileTree) → t.Sound → (p : Path) → s.Unskipped p →
    s.sourcesAt p t = t.addresses.map p.below
  | .file _, _, _, _ => rfl
  | .dir es, hsound, p, hp =>
      sourcesIn_eq es (hsound.names [] es rfl) (fun _ _ hmem => hsound.child hmem) p hp

theorem sourcesIn_eq : (es : List (String × FileTree)) →
    (∀ e ∈ es, Path.IsName e.1) → (∀ n c, (n, c) ∈ es → c.Sound) → (p : Path) →
    s.Unskipped p → s.sourcesIn p es = (FileTree.addressesIn es).map p.below
  | [], _, _, _, _ => rfl
  | (n, c) :: rest, hnames, hsound, p, hp => by
      obtain ⟨hn, hnames⟩ := List.forall_mem_cons.1 hnames
      have hjoined := hp.join hn
      have hhere : (p.join n).startsWith s.outDir = false :=
        hjoined [] fun _ hm => absurd hm List.not_mem_nil
      rw [sourcesIn, FileTree.addressesIn, List.map_append,
        sourcesIn_eq rest hnames (fun m c' hm => hsound m c' (List.mem_cons_of_mem _ hm)) p hp,
        sourcesAt_eq c (hsound n c List.mem_cons_self) (p.join n) hjoined]
      congr 1
      rw [isSkipped, hhere, Bool.false_or]
      by_cases hmodules : n = "node_modules"
      · rw [if_pos (decide_eq_true hmodules), if_pos hmodules]
        rfl
      · rw [if_neg (by simpa using hmodules), if_neg hmodules, List.map_map]
        rfl

end

/-- The source files: each is the root of the sources joined with an address. -/
theorem sourceFiles_perm_below (h : s.Unskipped s.srcDir) {t : FileTree} (hsound : t.Sound)
    {files : List Path} (hfiles : s.sourceFiles t = .ok files) :
    ∃ es, t.find s.srcDir = .ok (.dir es) ∧
      files.Perm ((FileTree.dir es).addresses.map s.srcDir.below) := by
  unfold sourceFiles at hfiles
  split at hfiles
  · exact nomatch hfiles
  · next es hes =>
      obtain ⟨node, hnode, hentries⟩ := Expansion.exists_of_bind_eq_ok hes
      obtain ⟨here, -, hget⟩ := Expansion.exists_of_bind_eq_ok hnode
      split at hget
      · next node' hthere =>
          cases hget
          cases node with
          | file text => exact nomatch hentries
          | dir es' =>
              cases hentries
              cases hfiles
              refine ⟨es, hnode, ?_⟩
              rw [← sourcesAt_eq (.dir es) (hsound.get? hthere) s.srcDir h]
              exact sorted_perm Path.le _
      · exact nomatch hget

/-- The source files of trees that lie apart. -/
theorem sourceFiles_perm (h : s.Apart src out) {t : FileTree} (hsound : t.Sound)
    {files : List Path} (hfiles : s.sourceFiles t = .ok files) :
    ∃ es, t.get? src = some (.dir es) ∧
      files.Perm ((FileTree.dir es).addresses.map s.srcDir.below) := by
  obtain ⟨es, hes, hperm⟩ := sourceFiles_perm_below h.unskipped hsound hfiles
  exact ⟨es, FileTree.find_eq_ok h.src_leads hes, hperm⟩

/-- Is there a source file at the address below the root of the sources? -/
def HasSource (src : List String) (t : FileTree) (ns : List String) : Prop :=
  (t.textAt? (src ++ ns)).isSome = true ∧ "node_modules" ∉ ns

theorem mem_addresses_dir {t : FileTree} (hsound : t.Sound) {es : List (String × FileTree)}
    (hes : t.get? src = some (.dir es)) {ns : List String} :
    ns ∈ (FileTree.dir es).addresses ↔ HasSource src t ns := by
  rw [FileTree.mem_addresses_iff (hsound.get? hes), HasSource, FileTree.textAt?,
    FileTree.textAt?, FileTree.get?_append, hes]
  rfl

theorem isName_of_hasSource {t : FileTree} (hsound : t.Sound) {ns : List String}
    (h : HasSource src t ns) : ∀ n ∈ ns, Path.IsName n := by
  obtain ⟨text, htext⟩ := Option.isSome_iff_exists.1 h.1
  intro n hn
  exact hsound.isName (FileTree.textAt?_eq_some.1 htext) n (List.mem_append_right src hn)

theorem ne_nil_of_hasSource {t : FileTree} {es : List (String × FileTree)}
    (hes : t.get? src = some (.dir es)) {ns : List String} (h : HasSource src t ns) :
    ns ≠ [] := by
  rintro rfl
  rw [HasSource, List.append_nil, FileTree.textAt?_eq_none_of_dir hes] at h
  exact nomatch h.1

/-- The source files are the files below the root of the sources that are not in a
`node_modules`. -/
theorem mem_sourceFiles_iff (h : s.Apart src out) {t : FileTree} (hsound : t.Sound)
    {files : List Path} (hfiles : s.sourceFiles t = .ok files) {p : Path} :
    p ∈ files ↔ ∃ ns, HasSource src t ns ∧ p = s.srcDir.below ns := by
  obtain ⟨es, hes, hperm⟩ := sourceFiles_perm h hsound hfiles
  rw [hperm.mem_iff, List.mem_map]
  constructor
  · rintro ⟨ns, hns, rfl⟩
    exact ⟨ns, (mem_addresses_dir hsound hes).1 hns, rfl⟩
  · rintro ⟨ns, hns, rfl⟩
    exact ⟨ns, (mem_addresses_dir hsound hes).2 hns, rfl⟩

end Session

end SiteMacros
