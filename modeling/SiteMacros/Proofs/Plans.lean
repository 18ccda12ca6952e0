import SiteMacros.Proofs.Mirror
import SiteMacros.Session.Batch

/-!
# What is noted of changes

A change that is told of a file of the source tree makes the plan of a batch
contain the file, among the modules or among the other files (`files_note`). What
is told as removed is gone from the output tree afterwards, and everything else is
there as it was (`noteChanges_noted`). So what a plan contains are source files, and
all those that a change was told of.
-/

namespace SiteMacros

namespace PathMap

variable {α : Type}

theorem mem_keys_insertEntry {k q : Path} {v : α} {es : List (Path × α)}
    (h : q ∈ (insertEntry k v es).map (·.1)) : q ∈ es.map (·.1) ∨ q = k := by
  induction es with
  | nil => exact .inr (List.mem_singleton.1 h)
  | cons e es ih =>
      obtain ⟨k', v'⟩ := e
      rw [insertEntry] at h
      split at h
      · rcases List.mem_cons.1 h with rfl | h
        · exact .inr rfl
        · exact .inl h
      · exact .inl h
      · rcases List.mem_cons.1 h with rfl | h
        · exact .inl List.mem_cons_self
        · exact (ih h).imp (List.mem_cons_of_mem _) id

theorem mem_keys_insert {m : PathMap α} {k q : Path} {v : α} (h : q ∈ (m.insert k v).keys) :
    q ∈ m.keys ∨ q = k :=
  mem_keys_insertEntry h

theorem mem_keys_erase {m : PathMap α} {k q : Path} (h : q ∈ (m.erase k).keys) : q ∈ m.keys := by
  obtain ⟨e, he, rfl⟩ := List.mem_map.1 h
  exact List.mem_map_of_mem (List.mem_filter.1 he).1

theorem mem_keys_eraseUnder {m : PathMap α} {dir q : Path} (h : q ∈ (m.eraseUnder dir).keys) :
    q ∈ m.keys := by
  obtain ⟨e, he, rfl⟩ := List.mem_map.1 h
  exact List.mem_map_of_mem (List.mem_filter.1 he).1

theorem contains_iff {m : PathMap α} {q : Path} :
    m.contains q = true ↔ ∃ k ∈ m.keys, k.components = q.components := by
  rw [contains, entryAt?, List.find?_isSome]
  constructor
  · rintro ⟨e, he, hsame⟩
    exact ⟨e.1, List.mem_map_of_mem he, Path.same_iff.1 hsame⟩
  · rintro ⟨k, hk, hsame⟩
    obtain ⟨e, he, rfl⟩ := List.mem_map.1 hk
    exact ⟨e, he, Path.same_iff.2 hsame⟩

theorem keys_distinct (m : PathMap α) :
    m.keys.Pairwise fun p q => p.components ≠ q.components := by
  refine List.pairwise_map.2 (m.inOrder.imp fun {e f} hlt heq => ?_)
  rw [Path.Before, Path.compare_eq_iff.2 heq] at hlt
  exact nomatch hlt

end PathMap

namespace PathSet

theorem mem_addAll {m : PathSet} {ps : List Path} {q : Path} (h : q ∈ (m.addAll ps).toList) :
    q ∈ m.toList ∨ q ∈ ps := by
  induction ps generalizing m with
  | nil => exact .inl h
  | cons p ps ih =>
      rcases ih h with h | h
      · exact (PathMap.mem_keys_insert h).imp id fun heq => by rw [heq]; exact List.mem_cons_self
      · exact .inr (List.mem_cons_of_mem p h)

theorem contains_add {m : PathSet} {p q : Path} :
    (m.add p).contains q = true ↔ m.contains q = true ∨ p.components = q.components := by
  rw [add, PathMap.contains_insert, Bool.or_eq_true, Path.same_iff]

theorem contains_addAll {m : PathSet} {ps : List Path} {q : Path} :
    (m.addAll ps).contains q = true ↔
      m.contains q = true ∨ ∃ p ∈ ps, p.components = q.components := by
  induction ps generalizing m with
  | nil => simp [addAll]
  | cons p ps ih =>
      have hcons : m.addAll (p :: ps) = (m.add p).addAll ps := rfl
      rw [hcons, ih, contains_add, or_assoc]
      simp only [List.mem_cons, exists_eq_or_imp]

end PathSet

/-- The modules of a plan, or its other files. -/
def Plan.files (plan : Plan) : (modules : Bool) → PathSet
  | true => plan.sources
  | false => plan.assets

/-- Is it the name of a resource? -/
def isResourceName (n : String) : Bool :=
  Text.endsWith ".yaml" n || Text.endsWith ".yml" n

namespace Session

variable {s : Session} {src out : List String}

/-- Is it the path of a resource? -/
def isResource (p : Path) : Bool :=
  Text.endsWith ".yaml" (p.fileName?.getD "") || Text.endsWith ".yml" (p.fileName?.getD "")

/-- The name of a module does not end in an ending that is not one of modules. -/
theorem endsWith_of_isModule {ending : String} (hdot : '.' ∉ ending.toList)
    (hending : ending ∉ s.configuration.sources.extensions) {p : Path} (hp : s.isModule p = true) :
    Text.endsWith ("." ++ ending) (p.fileName?.getD "") = false := by
  obtain ⟨extension, hextension, hmem⟩ := (Option.any_eq_true _ _).1 hp
  refine Bool.eq_false_iff.2 fun hends => ?_
  rcases Path.extension?_of_endsWith hdot hends with hnone | hsome
  · rw [hextension] at hnone
    exact nomatch hnone
  · rw [hextension] at hsome
    rw [Option.some.inj hsome] at hmem
    exact hending (List.contains_iff_mem.1 hmem)

/-- Modules are no resources if no ending of modules is one of resources. -/
theorem isResource_of_isModule (hyaml : "yaml" ∉ s.configuration.sources.extensions)
    (hyml : "yml" ∉ s.configuration.sources.extensions) {p : Path} (hp : s.isModule p = true) :
    isResource p = false :=
  Bool.or_eq_false_iff.2
    ⟨endsWith_of_isModule (by decide) hyaml hp, endsWith_of_isModule (by decide) hyml hp⟩

/-- A change of a file that the session cares for puts the file into the plan, and
no other change puts anything there. -/
theorem files_note (plan : Plan) (s : Session) (t : FileTree) (p : Path) (c : PathChange)
    (hresource : s.isModule p = true → isResource p = false) (modules : Bool) :
    (plan.note s t p (Change.classify s t p c)).files modules =
      if t.isFile p && Change.concerns s p && s.isModule p == modules then
        (plan.files modules).add p
      else plan.files modules := by
  rw [Change.classify]
  cases hconcerns : Change.concerns s p with
  | false => simp [Plan.note]
  | true =>
      cases hfile : t.isFile p with
      | false =>
          simp only [Bool.not_true, Bool.false_eq_true, if_false, Bool.false_and]
          repeat' split
          all_goals cases modules <;> simp [Plan.note, Plan.files, hfile]
      | true =>
          have hdir := FileTree.isDir_of_isFile hfile
          simp only [Bool.not_true, Bool.false_eq_true, if_false, Bool.and_true, Bool.true_and,
            hdir, Bool.and_false]
          split
          · cases hmodule : s.isModule p <;> cases modules <;>
              simp [Plan.note, Plan.addFile, Plan.files, hfile, hmodule]
          · split
            · next hyaml =>
                have hmodule : s.isModule p = false := by
                  refine Bool.eq_false_iff.2 fun hmodule => ?_
                  have hnot := hresource hmodule
                  rw [isResource, hyaml] at hnot
                  exact nomatch hnot
                cases modules <;> simp [Plan.note, Plan.files, hfile, hmodule]
            · cases hmodule : s.isModule p <;> cases modules <;>
                simp [Plan.note, Plan.files, hfile]

/-- The path is that of a source file. -/
def IsSource (src : List String) (t : FileTree) (p : Path) : Prop :=
  ∃ ks, ks ≠ [] ∧ p.Leads (src ++ ks) ∧ p.EndsInName ∧ HasSource src t ks

theorem belowSource_of_isSource {t : FileTree} {ps : List Path}
    (h : ∀ p ∈ ps, IsSource src t p) : BelowSource src ps := by
  intro p hp
  obtain ⟨ks, hks, hleads, hend, -⟩ := h p hp
  exact ⟨ks, hks, hleads, hend⟩

theorem hasSource_congr (h : s.Apart src out) {t t' : FileTree}
    (htexts : ∀ ns, ¬ out <+: ns → t'.textAt? ns = t.textAt? ns) (ns : List String) :
    HasSource src t' ns ↔ HasSource src t ns := by
  rw [HasSource, HasSource, htexts _ (h.not_below ns)]

theorem isSource_congr (h : s.Apart src out) {t t' : FileTree}
    (htexts : ∀ ns, ¬ out <+: ns → t'.textAt? ns = t.textAt? ns) (p : Path) :
    IsSource src t' p ↔ IsSource src t p := by
  simp only [IsSource, hasSource_congr h htexts]

theorem components_contains_name {p : Path} {ns : List String} (hp : p.Leads ns) (n : String) :
    p.components.contains (.name n) = true ↔ n ∈ ns := by
  rw [hp.components_eq, List.contains_iff_mem, List.mem_cons, List.mem_map]
  constructor
  · rintro (h | ⟨m, hm, heq⟩)
    · exact nomatch h
    · rwa [← Component.name.inj heq]
  · exact fun h => .inr ⟨n, h, rfl⟩

/-- The files that a session cares for are the source files. -/
theorem concerns_iff (h : s.Apart src out) (hmodules : "node_modules" ∉ src) {t : FileTree}
    (hsrc : t.textAt? src = none) {p : Path} {ms : List String} (hp : p.Leads ms)
    (hend : p.EndsInName) :
    (t.isFile p && Change.concerns s p) = true ↔ IsSource src t p := by
  rw [Bool.and_eq_true, FileTree.isFile_iff hp hend, Change.concerns, Bool.and_eq_true,
    Bool.and_eq_true, Bool.not_eq_true', Bool.not_eq_true', hp.startsWith_iff h.src_leads,
    Bool.eq_false_iff, ne_eq, Bool.eq_false_iff, ne_eq, components_contains_name hp]
  constructor
  · rintro ⟨htext, ⟨⟨ks, rfl⟩, -⟩, hnot⟩
    refine ⟨ks, ?_, hp, hend, htext, fun hmem => hnot (List.mem_append_right src hmem)⟩
    rintro rfl
    rw [List.append_nil, hsrc] at htext
    exact nomatch htext
  · rintro ⟨ks, -, hp', -, htext, hnot⟩
    obtain rfl := hp.names_eq hp' rfl
    refine ⟨htext, ⟨⟨ks, rfl⟩, ?_⟩, ?_⟩
    · rw [h.startsWith_outDir hp]
      exact Bool.false_ne_true
    · rw [List.mem_append, not_or]
      exact ⟨hmodules, hnot⟩

/-! ## One change after another -/

/-- What noting changes comes to: what is forgotten is gone from the output tree and
from the cache, and the plan has the files of which a change is told, in addition to
those that it had. -/
structure Noted (src out : List String) (changes : List (Path × PathChange))
    (s s' : Session) (t t' : FileTree) (plan plan' : Plan) : Prop where
  root : s'.root = s.root
  configuration : s'.configuration = s.configuration
  outside : ∀ ns, ¬ out <+: ns → t'.textAt? ns = t.textAt? ns
  kept : ∀ ns, (∀ c ∈ changes, c.2 = .removed → ∀ ks, c.1.Leads (src ++ ks) → ¬ ks <+: ns) →
    t'.textAt? (out ++ ns) = t.textAt? (out ++ ns)
  gone : ∀ ns, (t.textAt? (out ++ ns) = none ∨
    ∃ c ∈ changes, c.2 = .removed ∧ c.1.Leads (src ++ ns)) → t'.textAt? (out ++ ns) = none
  cached : ∀ k ∈ s'.cache.modules.keys, k ∈ s.cache.modules.keys
  files : ∀ modules, ∀ q ∈ (plan'.files modules).toList, q ∈ (plan.files modules).toList ∨
    (q ∈ changes.map (·.1) ∧ IsSource src t q ∧ s.isModule q = modules)
  told : ∀ modules q, ((plan.files modules).contains q = true ∨ ∃ c ∈ changes,
    c.1.components = q.components ∧ IsSource src t c.1 ∧ s.isModule c.1 = modules) →
    (plan'.files modules).contains q = true

theorem isModule_congr {s' : Session} (h : s'.configuration = s.configuration) (p : Path) :
    s'.isModule p = s.isModule p := by
  rw [isModule, isModule, h]

namespace Noted

variable {s' s'' : Session} {t t' t'' : FileTree} {plan plan' plan'' : Plan}
  {changes changes' : List (Path × PathChange)}

theorem nil (src out : List String) (s : Session) (t : FileTree) (plan : Plan) :
    Noted src out [] s s t t plan plan where
  root := rfl
  configuration := rfl
  outside _ _ := rfl
  kept _ _ := rfl
  gone _ h := h.elim id fun ⟨_, hc, _⟩ => absurd hc List.not_mem_nil
  cached _ hk := hk
  files _ _ hq := .inl hq
  told _ _ h := h.elim id fun ⟨_, hc, _⟩ => absurd hc List.not_mem_nil

theorem append (happart : s.Apart src out) (h : Noted src out changes s s' t t' plan plan')
    (h' : Noted src out changes' s' s'' t' t'' plan' plan'') :
    Noted src out (changes ++ changes') s s'' t t'' plan plan'' where
  root := h'.root.trans h.root
  configuration := h'.configuration.trans h.configuration
  outside ns hns := (h'.outside ns hns).trans (h.outside ns hns)
  kept ns hns := by
    rw [h'.kept ns fun c hc => hns c (List.mem_append_right _ hc),
      h.kept ns fun c hc => hns c (List.mem_append_left _ hc)]
  gone ns hns := by
    refine h'.gone ns ?_
    rcases hns with hnone | ⟨c, hc, hremoved⟩
    · exact .inl (h.gone ns (.inl hnone))
    · rcases List.mem_append.1 hc with hc | hc
      · exact .inl (h.gone ns (.inr ⟨c, hc, hremoved⟩))
      · exact .inr ⟨c, hc, hremoved⟩
  cached k hk := h.cached k (h'.cached k hk)
  files modules q hq := by
    rw [List.map_append, List.mem_append]
    rcases h'.files modules q hq with hq | ⟨htold, hsource, hmodule⟩
    · exact (h.files modules q hq).imp id fun hq => ⟨.inl hq.1, hq.2⟩
    · rw [isSource_congr happart h.outside] at hsource
      rw [isModule_congr h.configuration] at hmodule
      exact .inr ⟨.inr htold, hsource, hmodule⟩
  told modules q hq := by
    refine h'.told modules q ?_
    rcases hq with hq | ⟨c, hc, heq, hsource, hmodule⟩
    · exact .inl (h.told modules q (.inl hq))
    · rcases List.mem_append.1 hc with hc | hc
      · exact .inl (h.told modules q (.inr ⟨c, hc, heq, hsource, hmodule⟩))
      · rw [← isSource_congr happart h.outside] at hsource
        rw [← isModule_congr h.configuration] at hmodule
        exact .inr ⟨c, hc, heq, hsource, hmodule⟩

end Noted

/-- What is told of a path that is gone, or of one that is there. -/
def Told (src : List String) (c : Path × PathChange) : Prop :=
  ∃ ms, c.1.Leads ms ∧ c.1.EndsInName ∧ (c.2 = .removed → ms ≠ src)

theorem removeOutput_texts (h : s.Apart src out) {p : Path} {ks : List String}
    (hp : p.Leads (src ++ ks)) (hks : ks ≠ []) (t : FileTree) (ns : List String) :
    ((s.removeOutput p).run t).2.textAt? ns =
      if out ++ ks <+: ns then none else t.textAt? ns := by
  obtain ⟨q, hq, hleads, hend⟩ := outputPath?_leads h.src_leads h.out_leads hp
  unfold removeOutput
  rw [hq]
  exact OnDisk.textAt?_discard hleads (hend hks) (List.append_ne_nil_of_right_ne_nil out hks) t ns

theorem removeOutput_eq {p : Path} (h : p.startsWith s.srcDir = false) (t : FileTree) :
    ((s.removeOutput p).run t).2 = t := by
  unfold removeOutput
  rw [outputPath?_eq_none h]
  rfl

theorem forget_tree (s : Session) (p : Path) (t : FileTree) :
    (s.forget p t).1 = ((s.removeOutput p).run t).2 := by
  unfold forget
  rfl

/-- Forgetting a source file or directory takes away what is in its place, and
nothing else. -/
theorem forget_texts (h : s.Apart src out) {p : Path} {ms : List String} (hp : p.Leads ms)
    (hms : ms ≠ src) (t : FileTree) (ns : List String) :
    ((∃ ks, ms = src ++ ks ∧ out ++ ks <+: ns) → (s.forget p t).1.textAt? ns = none) ∧
    ((∀ ks, ms = src ++ ks → ¬ out ++ ks <+: ns) →
      (s.forget p t).1.textAt? ns = t.textAt? ns) := by
  rw [forget_tree]
  by_cases hunder : src <+: ms
  · obtain ⟨ks, rfl⟩ := hunder
    have hks : ks ≠ [] := by
      rintro rfl
      exact hms (List.append_nil src)
    rw [removeOutput_texts h hp hks]
    refine ⟨fun ⟨ks', heq, hbelow⟩ => if_pos ?_, fun hnot => if_neg (hnot ks rfl)⟩
    rwa [List.append_cancel_left heq]
  · have hout : p.startsWith s.srcDir = false :=
      Bool.eq_false_iff.2 fun hp' => hunder ((hp.startsWith_iff h.src_leads).1 hp')
    rw [removeOutput_eq hout]
    exact ⟨fun ⟨ks, heq, _⟩ => absurd ⟨ks, heq.symm⟩ hunder, fun _ => rfl⟩

/-- What noting one change comes to, once the change has been made good. -/
theorem note_noted (h : s.Apart src out) (hmodules : "node_modules" ∉ src)
    (hresource : ∀ p, s.isModule p = true → isResource p = false) {s' : Session}
    (hroot : s'.root = s.root) (hconfiguration : s'.configuration = s.configuration)
    (hcached : ∀ k ∈ s'.cache.modules.keys, k ∈ s.cache.modules.keys) {c : Path × PathChange}
    {ms : List String} (hp : c.1.Leads ms) (hend : c.1.EndsInName) {t t' : FileTree}
    (hsrc : t.textAt? src = none)
    (hgone : c.2 = .removed → ∀ ns, (∃ ks, ms = src ++ ks ∧ out ++ ks <+: ns) →
      t'.textAt? ns = none)
    (hkept : ∀ ns, (c.2 = .removed → ∀ ks, ms = src ++ ks → ¬ out ++ ks <+: ns) →
      t'.textAt? ns = t.textAt? ns) (plan : Plan) :
    Noted src out [c] s s' t t' plan
      (plan.note s' t' c.1 (Change.classify s' t' c.1 c.2)) := by
  have houtside : ∀ ns, ¬ out <+: ns → t'.textAt? ns = t.textAt? ns := fun ns hns =>
    hkept ns fun _ ks _ hbelow => hns ((List.prefix_append out ks).trans hbelow)
  have hsource : (t'.isFile c.1 && Change.concerns s' c.1) = true ↔ IsSource src t c.1 := by
    rw [concerns_iff (h.congr hroot hconfiguration) hmodules ?_ hp hend,
      isSource_congr h houtside]
    rw [houtside src h.out_not_above, hsrc]
  have hmodule := isModule_congr hconfiguration c.1
  have hfiles := files_note plan s' t' c.1 c.2
    (fun hm => hresource c.1 (by rw [← hmodule]; exact hm))
  refine ⟨hroot, hconfiguration, houtside, fun ns hns => ?_, fun ns hns => ?_, hcached,
    fun modules q hq => ?_, fun modules q hq => ?_⟩
  · refine hkept _ fun hremoved ks heq hbelow => ?_
    exact hns c List.mem_cons_self hremoved ks (heq ▸ hp)
      ((List.prefix_append_right_inj out).1 hbelow)
  · rcases hns with hnone | ⟨c', hc', hremoved, hleads⟩
    · by_cases hbelow : c.2 = .removed ∧ ∃ ks, ms = src ++ ks ∧ out ++ ks <+: out ++ ns
      · exact hgone hbelow.1 _ hbelow.2
      · rw [hkept _ fun hremoved ks heq hunder => hbelow ⟨hremoved, ks, heq, hunder⟩, hnone]
    · obtain rfl := List.mem_singleton.1 hc'
      exact hgone hremoved _ ⟨ns, hp.names_eq hleads rfl, List.prefix_refl _⟩
  · rw [hfiles] at hq
    split at hq
    · next hadd =>
        rw [Bool.and_eq_true, beq_iff_eq, hsource, hmodule] at hadd
        refine (PathMap.mem_keys_insert hq).imp id fun heq => ?_
        rw [heq]
        exact ⟨List.mem_singleton_self _, hadd⟩
    · exact .inl hq
  · rw [hfiles]
    rcases hq with hq | ⟨c', hc', heq, hsource', hmodule'⟩
    · split
      · exact PathSet.contains_add.2 (.inl hq)
      · exact hq
    · obtain rfl := List.mem_singleton.1 hc'
      rw [if_pos (by
        rw [Bool.and_eq_true, beq_iff_eq, hsource, hmodule]
        exact ⟨hsource', hmodule'⟩)]
      exact PathSet.contains_add.2 (.inr heq)

/-- What there is after a change has been made good. -/
def heed (s : Session) (t : FileTree) (c : Path × PathChange) : FileTree × Session × Nat :=
  if c.2 = .removed then s.forget c.1 t else (t, s, 0)

theorem noteChanges_cons (c : Path × PathChange) (changes : List (Path × PathChange))
    (plan : Plan) (s : Session) (t : FileTree) :
    noteChanges (c :: changes) plan s t =
      let heeded := s.heed t c
      let rest := noteChanges changes
        (plan.note heeded.2.1 heeded.1 c.1 (Change.classify heeded.2.1 heeded.1 c.1 c.2))
        heeded.2.1 heeded.1
      (rest.1, rest.2.1, heeded.2.2 + rest.2.2.1, rest.2.2.2) := rfl

theorem heed_session (s : Session) (t : FileTree) (c : Path × PathChange) :
    (s.heed t c).2.1 = if c.2 = .removed then
      { s with registry := s.registry.pruneUnder c.1, cache := s.cache.eraseUnder c.1 } else s := by
  rw [heed]
  split <;> rfl

theorem heed_same (s : Session) (t : FileTree) (c : Path × PathChange) :
    (s.heed t c).2.1.root = s.root ∧ (s.heed t c).2.1.configuration = s.configuration := by
  rw [heed_session]
  split <;> exact ⟨rfl, rfl⟩

/-- What noting changes comes to. -/
theorem noteChanges_noted (h : s.Apart src out) (hmodules : "node_modules" ∉ src)
    (hresource : ∀ p, s.isModule p = true → isResource p = false) {t : FileTree}
    (hsrc : t.textAt? src = none) {changes : List (Path × PathChange)}
    (htold : ∀ c ∈ changes, Told src c) (plan : Plan) :
    Noted src out changes s (noteChanges changes plan s t).2.1 t (noteChanges changes plan s t).1
      plan (noteChanges changes plan s t).2.2.2 := by
  induction changes generalizing s t plan with
  | nil => exact .nil src out s t plan
  | cons c changes ih =>
      obtain ⟨⟨ms, hp, hend, hms⟩, htold⟩ := List.forall_mem_cons.1 htold
      have hone : ∀ r : FileTree × Session × Nat, r = s.heed t c →
          Noted src out [c] s r.2.1 t r.1 plan
            (plan.note r.2.1 r.1 c.1 (Change.classify r.2.1 r.1 c.1 c.2)) := by
        rintro r rfl
        rw [heed]
        by_cases hremoved : c.2 = .removed
        · rw [if_pos hremoved]
          have hroot : (s.forget c.1 t).2.1.root = s.root := rfl
          exact note_noted h hmodules hresource hroot rfl
            (fun k hk => PathMap.mem_keys_eraseUnder hk) hp hend hsrc
            (fun _ ns => (forget_texts h hp (hms hremoved) t ns).1)
            (fun ns hns => (forget_texts h hp (hms hremoved) t ns).2 (hns hremoved)) plan
        · rw [if_neg hremoved]
          exact note_noted h hmodules hresource rfl rfl (fun k hk => hk) hp hend hsrc
            (fun heq => absurd heq hremoved) (fun _ _ => rfl) plan
      rw [noteChanges_cons]
      have hone := hone _ rfl
      generalize s.heed t c = r at hone ⊢
      refine hone.append h (ih (h.congr hone.root hone.configuration) ?_ ?_ htold _)
      · intro q hq
        rw [isModule_congr hone.configuration] at hq
        exact hresource q hq
      · rw [hone.outside src h.out_not_above, hsrc]

end Session

end SiteMacros
