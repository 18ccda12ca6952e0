import Mathlib.Data.Set.Card
import SiteMacros.Proofs.Edits
import SiteMacros.Proofs.FlatProjects
import SiteMacros.Proofs.Places
import SiteMacros.Proofs.Scans

/-!
# Every source file accounted for

A build that succeeds has done one of three things with a source file (`Account`). A file
that is no module, or has no macros, it has copied. A module with macros it has expanded,
and what the expansion came to is in the output tree and in the cache; or the module has
failed, and is reported, and nothing has happened in its place.

The build does its work file by file, and what it does for one file leaves the places of
the others alone, since of two files neither lies in the other (`elsewhere_of_ne`). So the
account of a file is settled by the one step that is about it. The roots may be written
with `..` here. Then it matters where they lead, and that the path of the sources does not
begin with that of the output tree, because what is skipped is told by the path (`Parted`).
-/

namespace SiteMacros

open Expansion FileTree

namespace Session

/-- The roots of the sources and of the output lead to places of which neither is in the
other, and the sources are not written as a path into the output tree. -/
structure Parted (s : Session) : Prop where
  root : s.root.isAbsolute = true
  src_not_above : ¬ s.srcDir.destination <+: s.outDir.destination
  out_not_above : ¬ s.outDir.destination <+: s.srcDir.destination
  not_through : s.srcDir.startsWith s.outDir = false

variable {s s' : Session} {t t' : FileTree} {ns ks ms : List String} {text : String}

namespace Parted

theorem src_absolute (h : s.Parted) : s.srcDir.isAbsolute = true :=
  Path.isAbsolute_join h.root _

theorem out_absolute (h : s.Parted) : s.outDir.isAbsolute = true :=
  Path.isAbsolute_join h.root _

theorem congr (h : s.Parted) (hroot : s'.root = s.root)
    (hconfiguration : s'.configuration = s.configuration) : s'.Parted := by
  have hsrc : s'.srcDir = s.srcDir := by rw [srcDir, srcDir, hroot, hconfiguration]
  have hout : s'.outDir = s.outDir := by rw [outDir, outDir, hroot, hconfiguration]
  exact ⟨hroot ▸ h.root, hsrc ▸ hout ▸ h.src_not_above, hsrc ▸ hout ▸ h.out_not_above,
    hsrc ▸ hout ▸ h.not_through⟩

/-- No place below the sources is in the output tree. -/
theorem not_below (h : s.Parted) (ns : List String) :
    ¬ s.outDir.destination <+: s.srcDir.destination ++ ns := by
  intro hout
  rcases List.prefix_or_prefix_of_prefix hout (List.prefix_append s.srcDir.destination ns)
    with hout | hsrc
  · exact h.out_not_above hout
  · exact h.src_not_above hsrc

theorem unskipped (h : s.Parted) : s.Unskipped s.srcDir := by
  intro ns hns
  have hbelow := Path.extends_below h.src_absolute hns
  rw [Bool.eq_false_iff, Path.startsWith, ne_eq, List.isPrefixOf_iff_prefix, hbelow.components]
  intro hout
  rcases List.prefix_or_prefix_of_prefix hout (List.prefix_append s.srcDir.components _)
    with hshort | ⟨ds, hds⟩
  · have hnot := h.not_through
    rw [Path.startsWith, Bool.eq_false_iff, ne_eq, List.isPrefixOf_iff_prefix] at hnot
    exact hnot hshort
  · -- the output tree would be below the sources
    rw [← hds] at hout
    obtain ⟨ms, -, rfl⟩ := List.prefix_map_iff.1 ((List.prefix_append_right_inj _).1 hout)
    have hbelow : s.srcDir.Extends ms s.outDir := ⟨h.out_absolute, hds.symm⟩
    exact h.src_not_above (hbelow.destination_eq ▸ List.prefix_append _ ms)

/-- A source file is found by its path, and has a place in the output tree. -/
theorem source (h : s.Parted) (hns : ∀ n ∈ ns, Path.IsName n) :
    s.srcDir.Extends ns (s.srcDir.below ns) ∧
      ∃ q, s.outputPath? (s.srcDir.below ns) = some q ∧ s.outDir.Extends ns q := by
  have hbelow := Path.extends_below h.src_absolute hns
  obtain ⟨habs, hpieces⟩ := Path.pieces_below h.src_absolute hns
  obtain ⟨rel, hrel, hrelative, hnames, -⟩ := Path.relativeTo?_steps habs h.src_absolute hpieces
  refine ⟨hbelow, s.outDir.join rel.text, by rw [outputPath?, hrel]; rfl, ?_⟩
  have hjoined := Path.isAbsolute_join h.out_absolute rel.text
  refine ⟨hjoined, ?_⟩
  rw [Path.components_absolute hjoined, Path.components_absolute h.out_absolute,
    Path.pieces_join_names h.out_absolute hrelative hnames, List.cons_append]

end Parted

/-! ## The source files -/

/-- Is there a source file at the address below the root of the sources? -/
def HasSourceAt (s : Session) (t : FileTree) (ns : List String) : Prop :=
  HasSource s.srcDir.destination t ns

theorem HasSourceAt.isName (hsound : t.Sound) (hns : s.HasSourceAt t ns) :
    ∀ n ∈ ns, Path.IsName n :=
  isName_of_hasSource hsound hns

section

variable (h : s.Parted) (hsound : t.Sound) {files : List Path}
  (hfiles : s.sourceFiles t = .ok files)
include h hsound hfiles

theorem mem_sourceFiles {p : Path} :
    p ∈ files ↔ ∃ ns, s.HasSourceAt t ns ∧ p = s.srcDir.below ns := by
  obtain ⟨es, hes, hperm⟩ := sourceFiles_perm_below h.unskipped hsound hfiles
  have hget := get?_of_find h.src_absolute hes
  rw [hperm.mem_iff, List.mem_map]
  constructor
  · rintro ⟨ns, hns, rfl⟩
    exact ⟨ns, (mem_addresses_dir hsound hget).1 hns, rfl⟩
  · rintro ⟨ns, hns, rfl⟩
    exact ⟨ns, (mem_addresses_dir hsound hget).2 hns, rfl⟩

theorem readText_of_source {text : String} (hns : s.HasSourceAt t ns)
    (htext : t.textAt? (s.srcDir.destination ++ ns) = some text) :
    t.readText (s.srcDir.below ns) = .ok text := by
  obtain ⟨es, hes, -⟩ := sourceFiles_perm_below h.unskipped hsound hfiles
  have hfind := find_below h.src_absolute hes (hns.isName hsound) (textAt?_eq_some.1 htext)
  rw [readText, hfind]
  rfl

end

theorem below_inj (h : s.Parted) (hks : ∀ n ∈ ks, Path.IsName n) (hms : ∀ n ∈ ms, Path.IsName n)
    (heq : (s.srcDir.below ks).components = (s.srcDir.below ms).components) : ks = ms := by
  rw [(h.source hks).1.components, (h.source hms).1.components] at heq
  exact Path.map_name_inj (List.append_cancel_left heq)

theorem distinct_sources (h : s.Parted) (hsound : t.Sound) {files : List Path}
    (hfiles : s.sourceFiles t = .ok files) : Distinct files := by
  obtain ⟨es, hes, hperm⟩ := sourceFiles_perm_below h.unskipped hsound hfiles
  have hget := get?_of_find h.src_absolute hes
  rw [Distinct, hperm.pairwise_iff fun hne => Ne.symm hne, List.pairwise_map]
  refine (addresses_nodup _ (hsound.get? hget)).imp_of_mem fun ha hb hne heq => hne ?_
  exact below_inj h (isName_of_hasSource hsound ((mem_addresses_dir hsound hget).1 ha))
    (isName_of_hasSource hsound ((mem_addresses_dir hsound hget).1 hb)) heq

/-- Source files with a property are as many as their paths in a list. -/
theorem length_eq_ncard_sources (h : s.Parted) (hsound : t.Sound) (P : List String → Prop)
    {ps : List Path} (hdistinct : Distinct ps)
    (hps : ∀ p, p ∈ ps ↔ ∃ ns, (s.HasSourceAt t ns ∧ P ns) ∧ p = s.srcDir.below ns) :
    ps.length = {ns | s.HasSourceAt t ns ∧ P ns}.ncard := by
  have hinj : Set.InjOn s.srcDir.below {ns | s.HasSourceAt t ns ∧ P ns} := fun ks hks ms hms heq =>
    below_inj h (hks.1.isName hsound) (hms.1.isName hsound) (by rw [heq])
  have himage : s.srcDir.below '' {ns | s.HasSourceAt t ns ∧ P ns} = (ps.toFinset : Set Path) := by
    ext p
    rw [List.coe_toFinset, Set.mem_ofPred_eq, hps]
    exact ⟨fun ⟨ns, hns, heq⟩ => ⟨ns, hns, heq.symm⟩, fun ⟨ns, hns, heq⟩ => ⟨ns, hns, heq.symm⟩⟩
  rw [← hinj.ncard_image, himage, Set.ncard_coe_finset, List.toFinset_card_of_nodup]
  exact hdistinct.imp fun hne heq => hne (by rw [heq])

/-- Of two files neither lies in the other. -/
theorem eq_of_prefix_of_texts {a b : List String} (ha : (t.textAt? a).isSome = true)
    (hb : (t.textAt? b).isSome = true) (hab : a <+: b) : a = b := by
  obtain ⟨text, htext⟩ := Option.isSome_iff_exists.1 hb
  by_contra hne
  rw [clear_of_get? (textAt?_eq_some.1 htext) a hab hne] at ha
  cases ha

/-! ## Steps that are about other places -/

/-- What is done for the file at `p` leaves the address alone. -/
def Elsewhere (s : Session) (ns : List String) (p : Path) : Prop :=
  ∀ q, s.outputPath? p = some q → q.isAbsolute = true ∧ ns ≠ q.destination ∧
    (q.PassesThrough ns → s.outDir.PassesThrough ns)

theorem elsewhere_of_not_prefix (h : s.Parted) (hms : ∀ n ∈ ms, Path.IsName n)
    (hns : ∀ ks, ks <+: ms → ns ≠ s.outDir.destination ++ ks) :
    s.Elsewhere ns (s.srcDir.below ms) := by
  obtain ⟨q, hq, hextends⟩ := (h.source hms).2
  intro q' hq'
  rw [hq] at hq'
  cases hq'
  refine ⟨hextends.absolute, ?_, fun hway => ?_⟩
  · rw [hextends.destination_eq]
    exact hns ms (List.prefix_refl ms)
  · rcases hextends.passesThrough hway with hout | ⟨ks, hks, heq⟩
    · exact hout
    · exact absurd heq (hns ks hks)

/-- The place of another file, and all below it. -/
theorem elsewhere_of_ne (h : s.Parted) (hsound : t.Sound) (hks : s.HasSourceAt t ks)
    (hms : s.HasSourceAt t ms) (hne : ks ≠ ms) (rest : List String) :
    s.Elsewhere (s.outDir.destination ++ ks ++ rest) (s.srcDir.below ms) := by
  refine elsewhere_of_not_prefix h (hms.isName hsound) fun ks' hks' heq => hne ?_
  rw [List.append_assoc] at heq
  rw [← List.append_cancel_left heq] at hks'
  have hbelow : s.srcDir.destination ++ ks <+: s.srcDir.destination ++ ms :=
    (List.prefix_append_right_inj _).2 ((List.prefix_append ks rest).trans hks')
  exact List.append_cancel_left (eq_of_prefix_of_texts hks.1 hms.1 hbelow)

/-- A place outside the output tree. -/
theorem elsewhere_outside (h : s.Parted) (hms : ∀ n ∈ ms, Path.IsName n)
    (hns : ¬ s.outDir.destination <+: ns) : s.Elsewhere ns (s.srcDir.below ms) :=
  elsewhere_of_not_prefix h hms fun ks _ heq => hns (heq ▸ List.prefix_append _ ks)

namespace Elsewhere

variable {p : Path}

theorem writeOutput (h : s.Elsewhere ns p) (text : String) :
    OnDisk.Keeps (LeftAlone s.outDir ns) (s.writeOutput p text) := by
  unfold Session.writeOutput
  split
  · next q hq =>
      obtain ⟨habs, hne, hway⟩ := h q hq
      exact OnDisk.leftAlone_writeFile habs hway hne text
  · exact .pure ()

theorem copyOutput (h : s.Elsewhere ns p) :
    OnDisk.Keeps (LeftAlone s.outDir ns) (s.copyOutput p) := by
  unfold Session.copyOutput
  split
  · next q hq =>
      obtain ⟨habs, hne, hway⟩ := h q hq
      exact OnDisk.leftAlone_copyFile habs hway hne p
  · exact .pure ()

/-- Results without an output may be about the place. -/
theorem writeProcessed {rs : List Processed}
    (h : ∀ r ∈ rs, ∀ text, r.2.toOption.bind (·.output?) = some text → s.Elsewhere ns r.1) :
    OnDisk.Keeps (LeftAlone s.outDir ns) (s.writeProcessed rs) :=
  writeProcessed_keeps fun r hr text houtput => (h r hr text houtput).writeOutput text

theorem copyOutputs {ps : List Path} (h : ∀ p ∈ ps, s.Elsewhere ns p) :
    OnDisk.Keeps (LeftAlone s.outDir ns) (ps.forM s.copyOutput) :=
  .forM ps fun p hp => (h p hp).copyOutput

end Elsewhere

/-! ## The step that is about a place -/

theorem writeProcessed_append (s : Session) (before after : List Processed) :
    s.writeProcessed (before ++ after) =
      (s.writeProcessed before >>= fun _ => s.writeProcessed after) := by
  induction before with
  | nil => rfl
  | cons r before ih =>
      obtain ⟨p, result⟩ := r
      rw [List.cons_append, writeProcessed, writeProcessed, ih]
      split
      · exact (bind_assoc _ _ _).symm
      · rfl

/-- A result with an output has it in its place, if the other results are about other
places. -/
theorem textAt?_writeProcessed {p q : Path} (hq : s.outputPath? p = some q)
    (habs : q.isAbsolute = true) {rs : List Processed} (hdistinct : Distinct (rs.map (·.1)))
    {result : Except Failure Outcome} (hmem : (p, result) ∈ rs)
    (hout : result.toOption.bind (·.output?) = some text)
    (hothers : ∀ r ∈ rs, r.1.components ≠ p.components → s.Elsewhere q.destination r.1)
    (hrun : (s.writeProcessed rs).run t = (.ok (), t')) :
    t'.textAt? q.destination = some text := by
  obtain ⟨before, after, rfl⟩ := List.append_of_mem hmem
  rw [writeProcessed_append] at hrun
  obtain ⟨_, t₁, -, hrun⟩ := OnDisk.run_bind_ok hrun
  rw [writeProcessed, hout] at hrun
  obtain ⟨_, t₂, hwritten, hrest⟩ := OnDisk.run_bind_ok hrun
  unfold writeOutput at hwritten
  rw [hq] at hwritten
  rw [Distinct, List.map_append, List.map_cons, List.pairwise_append] at hdistinct
  have hafter := (List.pairwise_cons.1 hdistinct.2.1).1
  have hkept := Elsewhere.writeProcessed (fun r hr _ _ => hothers r (by simp [hr])
    (Ne.symm (hafter r.1 (List.mem_map_of_mem hr)))) t₂
  rw [hrest] at hkept
  exact hkept.textAt?_eq.trans (OnDisk.textAt?_destination_writeFile habs hwritten)

/-- A copied file has its text in its place, if the others go to other places, and all
leave the file alone. -/
theorem textAt?_copyOutputs {p q : Path} (hp : p.isAbsolute = true)
    (hq : s.outputPath? p = some q) (habs : q.isAbsolute = true)
    (hne : p.destination ≠ q.destination) {ps : List Path} (hdistinct : Distinct ps) (hmem : p ∈ ps)
    (hothers : ∀ p' ∈ ps, p'.components ≠ p.components → s.Elsewhere q.destination p')
    (hsource : ∀ p' ∈ ps, s.Elsewhere p.destination p')
    (hrun : (ps.forM s.copyOutput : OnDisk Unit).run t = (.ok (), t')) :
    t'.textAt? q.destination = t.textAt? p.destination := by
  obtain ⟨before, after, rfl⟩ := List.append_of_mem hmem
  have hsplit : ((before ++ p :: after).forM s.copyOutput : OnDisk Unit) =
      (before.forM s.copyOutput >>= fun _ => (p :: after).forM s.copyOutput) :=
    List.forM_append
  rw [hsplit] at hrun
  obtain ⟨_, t₁, hbefore, hrun⟩ := OnDisk.run_bind_ok hrun
  obtain ⟨_, t₂, hcopied, hrest⟩ := OnDisk.run_bind_ok hrun
  unfold copyOutput at hcopied
  rw [hq] at hcopied
  obtain ⟨text, htext, hcopy⟩ := OnDisk.textAt?_destination_copyFile hp habs hne hcopied
  have hsame := Elsewhere.copyOutputs (fun p' hp' => hsource p' (List.mem_append_left _ hp')) t
  rw [hbefore] at hsame
  rw [Distinct, List.pairwise_append] at hdistinct
  have hafter := (List.pairwise_cons.1 hdistinct.2.1).1
  have hkept := Elsewhere.copyOutputs (fun p' hp' => hothers p' (by simp [hp'])
    (Ne.symm (hafter p' hp'))) t₂
  rw [hrest] at hkept
  rw [hkept.textAt?_eq, hcopy, ← htext, hsame.textAt?_eq]

/-! ## Results and failures -/

theorem mem_failures {rs : List Processed} {p : Path} {e : Failure} :
    (p, e) ∈ (BuildReport.ofProcessed rs).failures ↔ (p, .error e) ∈ rs := by
  rw [BuildReport.ofProcessed, List.mem_filterMap]
  constructor
  · rintro ⟨⟨p', result⟩, hmem, hfailed⟩
    cases result with
    | error e' =>
        cases hfailed
        exact hmem
    | ok outcome => cases hfailed
  · exact fun hmem => ⟨_, hmem, rfl⟩

theorem failures_sublist (rs : List Processed) :
    ((BuildReport.ofProcessed rs).failures.map (·.1)).Sublist (rs.map (·.1)) := by
  induction rs with
  | nil => exact .slnil
  | cons r rs ih =>
      obtain ⟨p, result⟩ := r
      cases result with
      | error e => exact ih.cons_cons p
      | ok outcome => exact ih.cons p

/-- A module has one result. -/
theorem result_unique {rs : List Processed} (hdistinct : Distinct (rs.map (·.1))) {p : Path}
    {a b : Except Failure Outcome} (ha : (p, a) ∈ rs) (hb : (p, b) ∈ rs) : a = b := by
  rw [Distinct, List.pairwise_map] at hdistinct
  have : Std.Symm fun a b : Processed => a.1.components ≠ b.1.components :=
    ⟨fun _ _ h => Ne.symm h⟩
  by_contra hne
  exact hdistinct.forall ha hb (fun heq => hne (Prod.mk.inj heq).2) rfl

/-- What the run of a build has come to for a module: what its text comes to with some
registry, and the cache has it if it is an expansion. -/
theorem exists_result {s' : Session} {modules : List Path} {rs : List Processed}
    (hdistinct : Distinct modules)
    (hprocessed : s.processAll t (fun _ => true) modules = (s', rs)) {p : Path}
    (hp : p ∈ modules) (htext : t.readText p = .ok text) :
    ∃ r, (p, outcomeOf p text (expandModule (s.surroundings t p) r text).2) ∈ rs ∧
      ∀ m, (expandModule (s.surroundings t p) r text).2 = .ok (some m) →
        s'.cache.get? p = some ⟨Text.digest text, m.dependencies, m.code⟩ := by
  obtain ⟨turn, hturn, rfl⟩ : ∃ u ∈ s.turns t (fun _ => true) modules, u.file = p :=
    exists_turn hp
  have hreached := (between_lastTurns (s.covers_inOrder t modules) hturn).reached
  obtain ⟨-, hleft, ⟨b, hresult, hforced⟩, -⟩ := remembered_turns hdistinct hturn
  rw [hforced rfl, process_forced htext, hreached.surroundings_eq] at hresult
  have hmem : turn.processed ∈ (s.processAll t (fun _ => true) modules).2 := by
    rw [← turns_processed]
    exact List.mem_map_of_mem hturn
  rw [hprocessed] at hmem hleft
  refine ⟨turn.before.registry, hresult ▸ hmem, fun m hm => ?_⟩
  rw [hleft, Turn.leaves, hresult, hm]
  show turn.before.entryNow? t turn.file = _
  rw [entryNow?, htext]
  dsimp only
  rw [hreached.surroundings_eq, hm]

/-! ## The account of a file -/

/-- What a build has done with the source file at an address, from `t` and `s` to `t'`
and `s'`. -/
inductive Account (s : Session) (t : FileTree) (ns : List String) (text : String)
    (t' : FileTree) (s' : Session) (report : BuildReport) : Prop where
  | copied
      (plain : s.isModule (s.srcDir.below ns) = true →
        (s.scan t (s.srcDir.below ns)).usesMacros = false)
      (copy : t'.textAt? (s.outDir.destination ++ ns) = some text)
      (unreported : ∀ e, (s.srcDir.below ns, e) ∉ report.failures)
  | expanded (r : Registry) (m : ExpandedModule)
      (isModule : s.isModule (s.srcDir.below ns) = true)
      (usesMacros : (s.scan t (s.srcDir.below ns)).usesMacros = true)
      (expansion : (expandModule (s.surroundings t (s.srcDir.below ns)) r text).2 = .ok (some m))
      (cached : s'.cache.get? (s.srcDir.below ns) =
        some ⟨Text.digest text, m.dependencies, m.code⟩)
      (code : t'.textAt? (s.outDir.destination ++ ns) = some m.code)
      (unreported : ∀ e, (s.srcDir.below ns, e) ∉ report.failures)
  | failed (e : Failure)
      (isModule : s.isModule (s.srcDir.below ns) = true)
      (usesMacros : (s.scan t (s.srcDir.below ns)).usesMacros = true)
      (reported : (s.srcDir.below ns, e) ∈ report.failures)
      (left : ∀ ms, LeftAlone s.outDir (s.outDir.destination ++ ns ++ ms) t t')

theorem scan_of_readText {p : Path} (h : t.readText p = .ok text) :
    s.scan t p = scanModule (s.surroundings t p).configuration (s.surroundings t p).file text := by
  rw [scan, h]
  rfl

namespace Built

variable {files : List Path} {rs : List Processed} {between : FileTree} {report : BuildReport}

section

variable (hb : s.Built t files rs between t' s' report)
include hb

theorem same : s'.root = s.root ∧ s'.configuration = s.configuration := by
  have hlater := s.processAll_later t (fun _ => true) (files.filter s.isModule)
  rw [hb.processed] at hlater
  exact ⟨hlater.root, hlater.configuration⟩

theorem elsewhere {p : Path} (h : s.Elsewhere ns p) : s'.Elsewhere ns p := by
  have hout : s'.outDir = s.outDir := by rw [outDir, outDir, hb.same.1, hb.same.2]
  intro q hq
  rw [outputPath?_congr hb.same.1 hb.same.2] at hq
  rw [hout]
  exact h q hq

theorem results_perm : (rs.map (·.1)).Perm (files.filter s.isModule) := by
  have hperm := s.processAll_paths_perm t (fun _ => true) (files.filter s.isModule)
  rwa [hb.processed] at hperm

theorem file_of_result {r : Processed} (hr : r ∈ rs) : r.1 ∈ files ∧ s.isModule r.1 = true :=
  List.mem_filter.1 (hb.results_perm.mem_iff.1 (List.mem_map_of_mem hr))

theorem mem_failures {p : Path} {e : Failure} : (p, e) ∈ report.failures ↔ (p, .error e) ∈ rs := by
  rw [hb.reported]
  exact Session.mem_failures

/-- What leaves an address alone while writing and copying leaves it alone. -/
theorem leftAlone
    (hwrites : ∀ r ∈ rs, ∀ text, r.2.toOption.bind (·.output?) = some text → s.Elsewhere ns r.1)
    (hcopies : ∀ p ∈ files.filter (!s.isModule ·), s.Elsewhere ns p) :
    LeftAlone s.outDir ns t between ∧ LeftAlone s.outDir ns between t' := by
  have hout : s'.outDir = s.outDir := by rw [outDir, outDir, hb.same.1, hb.same.2]
  have hwritten := Elsewhere.writeProcessed
    (fun r hr text htext => hb.elsewhere (hwrites r hr text htext)) t
  have hcopied := Elsewhere.copyOutputs (fun p hp => hb.elsewhere (hcopies p hp)) between
  rw [hb.written, hout] at hwritten
  rw [hb.copied, hout] at hcopied
  exact ⟨hwritten, hcopied⟩

variable (h : s.Parted) (hsound : t.Sound)
include h hsound

theorem results_distinct : Distinct (rs.map (·.1)) :=
  (hb.results_perm.pairwise_iff fun hne => Ne.symm hne).2
    ((distinct_sources h hsound hb.listed).filter _)

theorem leftAlone_outside (hns : ¬ s.outDir.destination <+: ns) : LeftAlone s.outDir ns t t' := by
  have hfile : ∀ p ∈ files, s.Elsewhere ns p := by
    intro p hp
    obtain ⟨ms, hms, rfl⟩ := (mem_sourceFiles h hsound hb.listed).1 hp
    exact elsewhere_outside h (hms.isName hsound) hns
  obtain ⟨hwritten, hcopied⟩ := hb.leftAlone (fun r hr _ _ => hfile r.1 (hb.file_of_result hr).1)
    fun p hp => hfile p (List.mem_filter.1 hp).1
  exact hwritten.trans hcopied

/-- What is done for other files leaves the place of a file alone. -/
theorem elsewhere_of_other (hns : s.HasSourceAt t ns) {p : Path} (hp : p ∈ files)
    (hne : p ≠ s.srcDir.below ns) (rest : List String) :
    s.Elsewhere (s.outDir.destination ++ ns ++ rest) p := by
  obtain ⟨ms, hms, rfl⟩ := (mem_sourceFiles h hsound hb.listed).1 hp
  exact elsewhere_of_ne h hsound hns hms (fun heq => hne (by rw [heq])) rest

/-- An output of the run is in its place in the end. -/
theorem textAt?_output {result : Except Failure Outcome} (hns : s.HasSourceAt t ns)
    (hr : (s.srcDir.below ns, result) ∈ rs)
    (hout : result.toOption.bind (·.output?) = some text) :
    t'.textAt? (s.outDir.destination ++ ns) = some text := by
  obtain ⟨-, q, hq, hextends⟩ := h.source (hns.isName hsound)
  have hothers : ∀ p ∈ files, p ≠ s.srcDir.below ns → s'.Elsewhere q.destination p := by
    intro p hp hne
    have helse := hb.elsewhere (hb.elsewhere_of_other h hsound hns hp hne [])
    rwa [List.append_nil, ← hextends.destination_eq] at helse
  have hwritten := textAt?_writeProcessed
    (by rw [outputPath?_congr hb.same.1 hb.same.2]; exact hq) hextends.absolute
    (hb.results_distinct h hsound) hr hout
    (fun r hr hne => hothers r.1 (hb.file_of_result hr).1 fun heq => hne (by rw [heq]))
    hb.written
  -- no copy goes to the place of a module
  have hcopies : ∀ p ∈ files.filter (!s.isModule ·), s'.Elsewhere q.destination p := by
    intro p hp
    obtain ⟨hp, hother⟩ := List.mem_filter.1 hp
    refine hothers p hp fun heq => ?_
    rw [heq, (hb.file_of_result hr).2] at hother
    cases hother
  have hcopied := Elsewhere.copyOutputs hcopies between
  rw [hb.copied] at hcopied
  rw [← hextends.destination_eq, hcopied.textAt?_eq, hwritten]

/-- A file that is no module has been copied. -/
theorem account_other (hns : s.HasSourceAt t ns)
    (hmodule : s.isModule (s.srcDir.below ns) = false)
    (htext : t.textAt? (s.srcDir.destination ++ ns) = some text) :
    Account s t ns text t' s' report := by
  obtain ⟨hbelow, q, hq, hextends⟩ := h.source (hns.isName hsound)
  have hfile := (mem_sourceFiles h hsound hb.listed).2 ⟨ns, hns, rfl⟩
  have houtside : ¬ s.outDir.destination <+: (s.srcDir.below ns).destination := by
    rw [hbelow.destination_eq]
    exact h.not_below ns
  have hsource : ∀ p ∈ files, s.Elsewhere (s.srcDir.below ns).destination p := by
    intro p hp
    obtain ⟨ms, hms, rfl⟩ := (mem_sourceFiles h hsound hb.listed).1 hp
    exact elsewhere_outside h (hms.isName hsound) houtside
  have hothers : ∀ p ∈ files.filter (!s.isModule ·),
      p.components ≠ (s.srcDir.below ns).components → s'.Elsewhere q.destination p := by
    intro p hp hne
    have helse := hb.elsewhere (hb.elsewhere_of_other h hsound hns (List.mem_filter.1 hp).1
      (fun heq => hne (by rw [heq])) [])
    rwa [List.append_nil, ← hextends.destination_eq] at helse
  refine .copied (fun hm => by rw [hmodule] at hm; cases hm) ?_ fun e he => ?_
  · have hkept := (hb.leftAlone (fun r hr _ _ => hsource r.1 (hb.file_of_result hr).1)
      fun p hp => hsource p (List.mem_filter.1 hp).1).1
    have hcopied := textAt?_copyOutputs hbelow.absolute
      (by rw [outputPath?_congr hb.same.1 hb.same.2]; exact hq) hextends.absolute
      (fun heq => houtside (heq ▸ hextends.destination_eq ▸ List.prefix_append _ ns))
      ((distinct_sources h hsound hb.listed).filter _)
      (List.mem_filter.2 ⟨hfile, by rw [hmodule]; rfl⟩) hothers
      (fun p hp => hb.elsewhere (hsource p (List.mem_filter.1 hp).1)) hb.copied
    rw [← hextends.destination_eq, hcopied, hkept.textAt?_eq, hbelow.destination_eq, htext]
  · have hmodule' := (hb.file_of_result (hb.mem_failures.1 he)).2
    rw [hmodule] at hmodule'
    cases hmodule'

/-- Nothing has happened in the place of a module that has failed. -/
theorem leftAlone_failed (hns : s.HasSourceAt t ns) {e : Failure}
    (hr : (s.srcDir.below ns, .error e) ∈ rs) (ms : List String) :
    LeftAlone s.outDir (s.outDir.destination ++ ns ++ ms) t t' := by
  have hothers := fun p hp hne => hb.elsewhere_of_other (p := p) h hsound hns hp hne ms
  refine have hkept := hb.leftAlone (fun r hr' text hout => ?_) fun p hp => ?_
    hkept.1.trans hkept.2
  · refine hothers r.1 (hb.file_of_result hr').1 fun heq => ?_
    -- the failed module has no output
    obtain ⟨p, result⟩ := r
    cases heq
    rw [← result_unique (hb.results_distinct h hsound) hr hr'] at hout
    cases hout
  · obtain ⟨hp, hother⟩ := List.mem_filter.1 hp
    refine hothers p hp fun heq => ?_
    rw [heq, (hb.file_of_result hr).2] at hother
    cases hother

/-- What has become of a module: the run has come to a result for its text. -/
theorem result_of_module (hns : s.HasSourceAt t ns)
    (hmodule : s.isModule (s.srcDir.below ns) = true)
    (htext : t.textAt? (s.srcDir.destination ++ ns) = some text) :
    ((s.scan t (s.srcDir.below ns)).usesMacros = false ∧
      (s.srcDir.below ns, .ok (.unchanged text)) ∈ rs) ∨
    (s.scan t (s.srcDir.below ns)).usesMacros = true ∧
      ((∃ e, (s.srcDir.below ns, .error e) ∈ rs) ∨
        ∃ r m, (expandModule (s.surroundings t (s.srcDir.below ns)) r text).2 = .ok (some m) ∧
          (s.srcDir.below ns, .ok (.expanded m.code)) ∈ rs ∧
          s'.cache.get? (s.srcDir.below ns) =
            some ⟨Text.digest text, m.dependencies, m.code⟩) := by
  have hread := readText_of_source h hsound hb.listed hns htext
  have hfile := (mem_sourceFiles h hsound hb.listed).2 ⟨ns, hns, rfl⟩
  obtain ⟨r, hr, hcached⟩ := exists_result ((distinct_sources h hsound hb.listed).filter s.isModule)
    hb.processed (List.mem_filter.2 ⟨hfile, hmodule⟩) hread
  have hplain : (s.scan t (s.srcDir.below ns)).usesMacros = false ↔
      (expandModule (s.surroundings t (s.srcDir.below ns)) r text).2 = .ok none := by
    rw [scan_of_readText hread]
    exact scanModule_usesMacros_iff
  rcases hexpand : (expandModule (s.surroundings t (s.srcDir.below ns)) r text).2 with e | _ | m <;>
    rw [hexpand] at hr hplain
  · exact .inr ⟨by simpa using hplain, .inl ⟨_, hr⟩⟩
  · exact .inl ⟨hplain.2 rfl, hr⟩
  · exact .inr ⟨by simpa using hplain, .inr ⟨r, m, hexpand, hr, hcached m hexpand⟩⟩

/-- A module has been copied, or expanded, or reported. -/
theorem account_module (hns : s.HasSourceAt t ns)
    (hmodule : s.isModule (s.srcDir.below ns) = true)
    (htext : t.textAt? (s.srcDir.destination ++ ns) = some text) :
    Account s t ns text t' s' report := by
  have hunreported : ∀ outcome, (s.srcDir.below ns, .ok outcome) ∈ rs →
      ∀ e, (s.srcDir.below ns, e) ∉ report.failures := by
    intro outcome hok e he
    cases result_unique (hb.results_distinct h hsound) hok (hb.mem_failures.1 he)
  rcases hb.result_of_module h hsound hns hmodule htext with
    ⟨hplain, hr⟩ | ⟨huses, ⟨e, hr⟩ | ⟨r, m, hexpand, hr, hcached⟩⟩
  · exact .copied (fun _ => hplain) (hb.textAt?_output h hsound hns hr rfl) (hunreported _ hr)
  · exact .failed e hmodule huses (hb.mem_failures.2 hr) (hb.leftAlone_failed h hsound hns hr)
  · exact .expanded r m hmodule huses hexpand hcached (hb.textAt?_output h hsound hns hr rfl)
      (hunreported _ hr)

/-! ## How many -/

theorem copied_eq :
    report.copied = {ns | s.HasSourceAt t ns ∧ s.isModule (s.srcDir.below ns) = false}.ncard := by
  rw [hb.reported]
  have hdistinct := distinct_sources h hsound hb.listed
  refine length_eq_ncard_sources h hsound _ (hdistinct.filter _) fun p => ?_
  rw [List.mem_filter, mem_sourceFiles h hsound hb.listed]
  constructor
  · rintro ⟨⟨ns, hns, rfl⟩, hother⟩
    exact ⟨ns, ⟨hns, by simpa using hother⟩, rfl⟩
  · rintro ⟨ns, ⟨hns, hother⟩, rfl⟩
    exact ⟨⟨ns, hns, rfl⟩, by rw [hother]; rfl⟩

/-- The expanded modules are those that have macros and are not reported. -/
theorem expanded_eq :
    report.expanded = {ns | s.HasSourceAt t ns ∧ (s.isModule (s.srcDir.below ns) = true ∧
      (s.scan t (s.srcDir.below ns)).usesMacros = true ∧
      ∀ e, (s.srcDir.below ns, e) ∉ report.failures)}.ncard := by
  have hdistinct := hb.results_distinct h hsound
  have hcount : report.expanded =
      ((rs.filter fun r => r.2.toOption.any (·.isExpanded)).map (·.1)).length := by
    rw [List.length_map, hb.reported]
    rfl
  rw [hcount]
  refine length_eq_ncard_sources h hsound _ ?_ fun p => ?_
  · exact hdistinct.sublist (List.filter_sublist.map _)
  rw [List.mem_map]
  constructor
  · rintro ⟨⟨p, result⟩, hr, rfl⟩
    obtain ⟨hr, hexpanded⟩ := List.mem_filter.1 hr
    obtain ⟨hfile, hmodule⟩ := hb.file_of_result hr
    obtain ⟨ns, hns, rfl⟩ := (mem_sourceFiles h hsound hb.listed).1 hfile
    obtain ⟨text, htext⟩ := Option.isSome_iff_exists.1 hns.1
    refine ⟨ns, ⟨hns, hmodule, ?_, fun e he => ?_⟩, rfl⟩
    · rcases hb.result_of_module h hsound hns hmodule htext with ⟨-, hplain⟩ | ⟨huses, -⟩
      · rw [result_unique hdistinct hr hplain] at hexpanded
        cases hexpanded
      · exact huses
    · rw [result_unique hdistinct hr (hb.mem_failures.1 he)] at hexpanded
      cases hexpanded
  · rintro ⟨ns, ⟨hns, hmodule, huses, hunreported⟩, rfl⟩
    obtain ⟨text, htext⟩ := Option.isSome_iff_exists.1 hns.1
    rcases hb.result_of_module h hsound hns hmodule htext with
      ⟨hplain, -⟩ | ⟨-, ⟨e, hr⟩ | ⟨r, m, -, hr, -⟩⟩
    · rw [huses] at hplain
      cases hplain
    · exact absurd (hb.mem_failures.2 hr) (hunreported e)
    · exact ⟨_, List.mem_filter.2 ⟨hr, rfl⟩, rfl⟩

end

end Built

/-- A build that succeeds accounts for every source file: it is copied, or expanded, or
reported, and reported once. Each has a place of its own in the output tree, and the
report has the numbers. Outside the output tree nothing happens but that directories on
the way to it are made. -/
theorem build_accounts {report : BuildReport} (h : s.Parted) (hsound : t.Sound)
    (hbuild : s.build true t = ((t', s'), .ok report)) :
    (∀ ns text, t.textAt? (s.srcDir.destination ++ ns) = some text → "node_modules" ∉ ns →
      Account s t ns text t' s' report) ∧
    Distinct (report.failures.map (·.1)) ∧
    (∀ ns, s.HasSourceAt t ns →
      (∃ q, s.outputPath? (s.srcDir.below ns) = some q ∧
        q.destination = s.outDir.destination ++ ns) ∧
      ∀ ms, s.HasSourceAt t ms →
        s.outputPath? (s.srcDir.below ms) = s.outputPath? (s.srcDir.below ns) → ms = ns) ∧
    report.expanded = {ns | s.HasSourceAt t ns ∧ (s.isModule (s.srcDir.below ns) = true ∧
      (s.scan t (s.srcDir.below ns)).usesMacros = true ∧
      ∀ e, (s.srcDir.below ns, e) ∉ report.failures)}.ncard ∧
    report.copied = {ns | s.HasSourceAt t ns ∧ s.isModule (s.srcDir.below ns) = false}.ncard ∧
    ∀ ns, ¬ s.outDir.destination <+: ns → LeftAlone s.outDir ns t t' := by
  obtain ⟨files, rs, between, hb⟩ := exists_built hbuild
  refine ⟨fun ns text htext hmodules => ?_, ?_, fun ns hns => ?_, hb.expanded_eq h hsound,
    hb.copied_eq h hsound, fun ns hns => hb.leftAlone_outside h hsound hns⟩
  · have hns : s.HasSourceAt t ns := ⟨by rw [htext]; rfl, hmodules⟩
    cases hmodule : s.isModule (s.srcDir.below ns) with
    | false => exact hb.account_other h hsound hns hmodule htext
    | true => exact hb.account_module h hsound hns hmodule htext
  · rw [hb.reported]
    exact (hb.results_distinct h hsound).sublist (failures_sublist rs)
  · obtain ⟨q, hq, hextends⟩ := (h.source (hns.isName hsound)).2
    refine ⟨⟨q, hq, hextends.destination_eq⟩, fun ms hms heq => ?_⟩
    obtain ⟨q', hq', hextends'⟩ := (h.source (hms.isName hsound)).2
    rw [hq, hq'] at heq
    have hdest := congrArg Path.destination (Option.some.inj heq)
    rw [hextends.destination_eq, hextends'.destination_eq] at hdest
    exact List.append_cancel_left hdest

/-- A style sheet, a module without macros, one that is expanded, and one that does not
parse. -/
theorem build_accounts_ofProject :
    let files := [("a.ts", "import\x7bloadMenus as m\x7dfrom\"pages.macro\";m(\".\",\"/\")"),
      ("b.css", "x"), ("c.ts", "1"), ("d.ts", "\"pages.macro\"("), ("index.tsx", "")]
    let t := unbuilt files
    ofProject.Parted ∧ t.Sound ∧ ∃ report,
      ofProject.build true t = ((ofProject.builtTree t, ofProject.afterBuild t), .ok report) ∧
      ∀ f ∈ files,
        Account ofProject t [f.1] f.2 (ofProject.builtTree t) (ofProject.afterBuild t) report := by
  intro files t
  have hparted : ofProject.Parted :=
    ⟨by decide +kernel, by decide +kernel, by decide +kernel, by decide +kernel⟩
  have hsound : t.Sound := by decide +kernel
  have hbuilds : ofProject.Builds t := by decide +kernel
  have htexts : ∀ f ∈ files, t.textAt? (ofProject.srcDir.destination ++ [f.1]) = some f.2 ∧
      "node_modules" ∉ [f.1] := by decide +kernel
  obtain ⟨report, hbuild⟩ := hbuilds.eq_ok
  refine ⟨hparted, hsound, report, hbuild, fun f hf => ?_⟩
  exact (build_accounts hparted hsound hbuild).1 [f.1] f.2 (htexts f hf).1 (htexts f hf).2

/-- Two trees that are disjoint as their paths are written and where they lead. -/
def DisjointRoots (s : Session) : Prop :=
  (s.srcDir.startsWith s.outDir = false ∧ s.outDir.startsWith s.srcDir = false) ∧
    ¬ s.srcDir.destination <+: s.outDir.destination ∧
    ¬ s.outDir.destination <+: s.srcDir.destination

instance (s : Session) : Decidable s.DisjointRoots :=
  inferInstanceAs (Decidable (_ ∧ _))

/-- A build changes what is outside the output tree: it makes the directory around it. And
roots whose paths are disjoint may lead to one place, or be written one through the
other: a source file is emptied, or left out. -/
theorem disjoint_roots_insufficient :
    (¬ ∀ (s : Session) (t : FileTree), s.DisjointRoots → t.Sound → s.Builds t →
      ∀ ns, ¬ s.outDir.destination <+: ns → (s.builtTree t).bareAt? ns = t.bareAt? ns) ∧
    (¬ ∀ (s : Session) (t : FileTree),
      s.srcDir.startsWith s.outDir = false ∧ s.outDir.startsWith s.srcDir = false → t.Sound →
      s.Builds t → ∀ ns text, t.textAt? (s.srcDir.destination ++ ns) = some text →
        s.isModule (s.srcDir.below ns) = false →
        (s.builtTree t).textAt? (s.outDir.destination ++ ns) = some text) ∧
    ¬ ∀ (s : Session) (t : FileTree),
      (¬ s.srcDir.destination <+: s.outDir.destination ∧
        ¬ s.outDir.destination <+: s.srcDir.destination) → t.Sound →
      s.Builds t → ∀ ns text, t.textAt? (s.srcDir.destination ++ ns) = some text →
        s.isModule (s.srcDir.below ns) = false →
        (s.builtTree t).textAt? (s.outDir.destination ++ ns) = some text := by
  refine ⟨fun hclaim => ?_, fun hclaim => ?_, fun hclaim => ?_⟩
  · have hmade := hclaim (withRoots "src" "build/out") (unbuilt [("b.css", "x")])
      (by decide +kernel) (by decide +kernel) (by decide +kernel) ["p", "build"]
      (by decide +kernel)
    exact absurd hmade (by decide +kernel)
  · have hemptied := hclaim (withRoots "src" "x/../src") (unbuilt [("b.css", "x")])
      (by decide +kernel) (by decide +kernel) (by decide +kernel) ["b.css"] "x"
      (by decide +kernel) (by decide +kernel)
    exact absurd hemptied (by decide +kernel)
  · have hskipped := hclaim (withRoots "out/../src" "out")
      (.dir [("p", .dir [("src", flat [("b.css", "x")]), ("out", .dir [])])])
      (by decide +kernel) (by decide +kernel) (by decide +kernel) ["b.css"] "x"
      (by decide +kernel) (by decide +kernel)
    exact absurd hskipped (by decide +kernel)

end Session

end SiteMacros
