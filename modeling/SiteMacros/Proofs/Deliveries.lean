import SiteMacros.Proofs.Attempts
import SiteMacros.Proofs.Beside
import SiteMacros.Proofs.Places

/-!
# Deliveries

An expansion is cached before its text is written, and it stays cached if it cannot be
written. So a module that is found fresh has the text of its last expansion, but the
output tree need not have what that expansion came to: it has exactly if the job of the
expansion has delivered it (`fresh_delivered_iff`). A build that succeeds has, and a batch
has unless it reports the module.

What is delivered stays. As long as a module comes to nothing but failures, or to nothing
at all, and is not told to be gone, no job touches its place (`Begins.leaves_of_idle`). And
what is not delivered is not made good: there is no text in the place then
(`OnDisk.textAt?_of_writeFile_error`), and a later batch that is told of the module finds
it fresh (`fresh_undelivered`).
-/

namespace SiteMacros

namespace Session

variable {s : Session} {src out ks ms : List String} {q : Path}

/-! ## Jobs and files -/

/-- The files that a job is given. -/
def Job.given : Job → FileTree
  | .build _ tree => tree
  | .batch _ tree => tree

/-- The files after a job. -/
def Job.leaves (s : Session) : Job → FileTree
  | .build write tree => (s.build write tree).1.1
  | .batch changes tree => (s.applyBatch changes tree).1

/-- Nobody but the session changes the text at the place: each job finds there what the one
before has left, and so it is in the end. -/
def Undisturbed (s : Session) (place : List String) : List Job → FileTree → Prop
  | [], _ => True
  | job :: earlier, now =>
      now.textAt? place = (job.leaves (s.after earlier)).textAt? place ∧
        s.Undisturbed place earlier job.given

instance decidableUndisturbed (s : Session) (place : List String) :
    ∀ jobs now, Decidable (s.Undisturbed place jobs now)
  | [], _ => .isTrue trivial
  | job :: earlier, _ =>
      have := decidableUndisturbed s place earlier job.given
      inferInstanceAs (Decidable (_ ∧ _))

/-! ## Other files -/

/-- What is done for a file leaves the places of the others alone. -/
theorem Apart.keeps_elsewhere (h : s.Apart src out) {p : Path} (hp : p.Leads (src ++ ms))
    (hne : ks ≠ ms) :
    (∀ text, OnDisk.Keeps (OnDisk.Same (·.textAt? (out ++ ks))) (s.writeOutput p text)) ∧
      OnDisk.Keeps (OnDisk.Same (·.textAt? (out ++ ks))) (s.copyOutput p) := by
  obtain ⟨target, htarget, hleads, -⟩ := outputPath?_leads h.src_leads h.out_leads hp
  have hmake : OnDisk.Keeps (OnDisk.Same (·.textAt? (out ++ ks))) (OnDisk.makeAround target) :=
    .makeAround fun dir _ t => t.textAt?_makeDirs dir _
  have hwrite : ∀ (t t' : FileTree) text, t.writeText target text = .ok t' →
      OnDisk.Same (·.textAt? (out ++ ks)) t t' := by
    intro t t' text hwritten
    refine FileTree.textAt?_writeText_of_ne hleads.isAbsolute hwritten fun heq => hne ?_
    rw [hleads.destination_eq] at heq
    exact List.append_cancel_left heq
  refine ⟨fun text => ?_, ?_⟩
  · unfold writeOutput
    rw [htarget]
    exact .writeFile hmake hwrite
  · unfold copyOutput
    rw [htarget]
    exact .copyFile p hmake hwrite

/-- Paths of different components have different places. -/
theorem ne_of_components_ne (hq : q.Leads (src ++ ks)) {p : Path} (hp : p.Leads (src ++ ms))
    (hne : p.components ≠ q.components) : ks ≠ ms := by
  rintro rfl
  exact hne (hp.components_eq.trans hq.components_eq.symm)

theorem components_ne_of_not_module (hq : s.isModule q = true) {p : Path}
    (hp : s.isModule p = false) : p.components ≠ q.components := by
  intro heq
  rw [isModule_of_components heq, hq] at hp
  cases hp

/-- A module that has an output has come to more than a failure, and was not fresh. -/
theorem Turn.output?_of_idle {u : Turn}
    (h : u.result = .ok .fresh ∨ ∃ e, u.result = .error e) :
    u.result.toOption.bind (·.output?) = none := by
  rcases h with h | ⟨e, h⟩ <;> rw [h] <;> rfl

section

variable (happart : s.Apart src out) (hq : q.Leads (src ++ ks)) (hmodule : s.isModule q = true)
include happart hq hmodule

theorem build_leaves_of_idle {t : FileTree} (hsound : t.Sound) (write : Bool)
    (hidle : ∀ r ∈ s.buildResults t, r.1.components = q.components →
      r.2.toOption.bind (·.output?) = none) :
    ((Job.build write t).leaves s).textAt? (out ++ ks) = t.textAt? (out ++ ks) := by
  cases write with
  | false =>
      have htree : (Job.build false t).leaves s = t := by
        rw [Job.leaves]
        unfold build
        cases s.sourceFiles t <;> rfl
      rw [htree]
  | true =>
      have hkept : OnDisk.Same (·.textAt? (out ++ ks)) t (s.build true t).1.1 := by
        refine build_keeps (fun r hr text htext => ?_) fun files hfiles p hp => ?_
        · obtain ⟨files, hfiles, hfile, -⟩ := mem_buildResults hr
          obtain ⟨ms, -, hleads, -⟩ := belowSource_sourceFiles happart hsound hfiles r.1 hfile
          have hne : r.1.components ≠ q.components := fun hsame => by
            rw [hidle r hr hsame] at htext
            cases htext
          exact (happart.keeps_elsewhere hleads (ne_of_components_ne hq hleads hne)).1 text
        · obtain ⟨hfile, hother⟩ := List.mem_filter.1 hp
          obtain ⟨ms, -, hleads, -⟩ := belowSource_sourceFiles happart hsound hfiles p hfile
          have hne := components_ne_of_not_module hmodule (by simpa using hother)
          exact (happart.keeps_elsewhere hleads (ne_of_components_ne hq hleads hne)).2
      exact hkept

end

section

variable {changes : List (Path × PathChange)} {t : FileTree} (h : Prepared s src out changes t)
  (hq : q.Leads (src ++ ks)) (hmodule : s.isModule q = true)
include h hq

/-- Noting changes leaves the place of a file alone that is not told to be gone. -/
theorem Prepared.noted_textAt? (hgone : changes.any (tellsGone q) = false) :
    (noteChanges changes {} s t).1.textAt? (out ++ ks) = t.textAt? (out ++ ks) := by
  refine h.noted.kept ks fun c hc hremoved ms hleads hbelow => ?_
  have hbelow' : q.startsWith c.1 = true :=
    (hq.startsWith_iff hleads).2 ((List.prefix_append_right_inj src).2 hbelow)
  refine List.any_eq_false.1 hgone c hc ?_
  rw [tellsGone, hremoved, hbelow']
  rfl

include hmodule

theorem Prepared.keeps_copied {p : Path}
    (hp : p ∈ (noteChanges changes {} s t).2.2.2.assets.toList) :
    p.components ≠ q.components ∧
      OnDisk.Keeps (OnDisk.Same (·.textAt? (out ++ ks))) (s.copyOutput p) := by
  obtain ⟨⟨ms, -, hleads, -⟩, hother⟩ := h.mem_files false hp
  have hne := components_ne_of_not_module hmodule hother
  exact ⟨hne, (h.apart.keeps_elsewhere hleads (ne_of_components_ne hq hleads hne)).2⟩

theorem Prepared.batch_leaves_of_idle (hgone : changes.any (tellsGone q) = false)
    (hidle : ∀ r ∈ s.batchResults changes t, r.1.components = q.components →
      r.2.toOption.bind (·.output?) = none) :
    ((Job.batch changes t).leaves s).textAt? (out ++ ks) = t.textAt? (out ++ ks) := by
  have hkept : OnDisk.Same (·.textAt? (out ++ ks)) (noteChanges changes {} s t).1
      (s.applyBatch changes t).1 := by
    refine h.applyBatch_keeps (fun r hr text htext => ?_) fun p hp =>
      (h.keeps_copied hq hmodule hp).2
    obtain ⟨⟨ms, -, hleads, -⟩, -⟩ := h.mem_batchResults hr
    have hne : r.1.components ≠ q.components := fun hsame => by
      rw [hidle r hr hsame] at htext
      cases htext
    exact (h.apart.keeps_elsewhere hleads (ne_of_components_ne hq hleads hne)).1 text
  exact Eq.trans hkept (h.noted_textAt? hq hgone)

end

/-! ## Delivered texts -/

theorem textFor?_of_mem {rs : List Processed} (hdistinct : Distinct (rs.map (·.1))) {p : Path}
    {ns : List String} (hp : p.Leads ns) {result : Except Failure Outcome}
    (hmem : (p, result) ∈ rs) : textFor? rs ns = result.toOption.bind (·.output?) := by
  have hnames : p.names ns = true := hp.names_iff.2 rfl
  induction rs with
  | nil => exact absurd hmem List.not_mem_nil
  | cons r rs ih =>
      obtain ⟨hr, hrest⟩ := List.pairwise_cons.1 hdistinct
      rw [textFor?, List.find?_cons]
      rcases List.mem_cons.1 hmem with rfl | hmem
      · rw [hnames]
        rfl
      · have hne := hr p (List.mem_map_of_mem (f := (·.1)) hmem)
        have hother : r.1.names ns = false := by
          rw [Path.names, beq_eq_false_iff_ne, ← hp.components_eq]
          exact hne
        rw [hother]
        exact ih hrest hmem

/-- A build that succeeds has delivered what each module has come to. -/
theorem build_delivers (happart : s.Apart src out) {t : FileTree} (hsound : t.Sound)
    {report : BuildReport} (hbuild : (s.build true t).2 = .ok report) {p : Path}
    (hp : p.Leads (src ++ ks)) {result : Except Failure Outcome}
    (hmem : (p, result) ∈ s.buildResults t) {code : String}
    (houtput : result.toOption.bind (·.output?) = some code) :
    (s.build true t).1.1.textAt? (out ++ ks) = some code := by
  obtain ⟨files, hfiles, hfile, hmodule⟩ := mem_buildResults hmem
  obtain ⟨ns, hns, heq⟩ := (mem_sourceFiles_iff happart hsound hfiles).1 hfile
  have hperm := s.processAll_paths_perm t (fun _ => true) (files.filter s.isModule)
  have hdistinct : Distinct ((s.buildResults t).map (·.1)) := by
    rw [buildResults_eq hfiles, Distinct, hperm.pairwise_iff fun hne => Ne.symm hne]
    exact (distinct_sourceFiles happart hsound hfiles).filter _
  obtain ⟨es, hes, -⟩ := sourceFiles_perm happart hsound hfiles
  have hleads := (happart.leads_of_hasSource hsound hes hns).2.1
  rw [← heq] at hleads
  obtain rfl := List.append_cancel_left (hleads.names_eq hp rfl)
  have hplaced := build_placed happart hsound (Prod.ext rfl hbuild)
  rw [hplaced.inside, buildText?, ← heq, if_pos hmodule, textFor?_of_mem hdistinct hp hmem, houtput]
  rfl

theorem reportWritten_failures_paths {report : BatchReport} {p : Path}
    {written : Except Failure Bool} {f : Path × Failure}
    (hf : f ∈ (reportWritten report p written).failures) : f ∈ report.failures ∨ f.1 = p := by
  rcases written with e | _ | _
  · exact (List.mem_append.1 hf).imp id fun hf => by rw [List.mem_singleton.1 hf]
  · exact .inl hf
  · exact .inl hf

/-- What is reported of a batch is about what the batch has been given. -/
theorem rewriteAll_failures_paths {rs : List Processed} {report : BatchReport} {t : FileTree}
    {f : Path × Failure} (hf : f ∈ (s.rewriteAll rs report t).2.failures) :
    f ∈ report.failures ∨ f.1 ∈ rs.map (·.1) := by
  induction rs generalizing report t with
  | nil => exact .inl hf
  | cons r rs ih =>
      obtain ⟨p, result⟩ := r
      rw [List.map_cons, List.mem_cons, ← or_assoc]
      rw [rewriteAll_cons] at hf
      split at hf <;> exact (ih hf).imp reportWritten_failures_paths id

theorem copyAll_failures_paths {ps : List Path} {report : BatchReport} {t : FileTree}
    {f : Path × Failure} (hf : f ∈ (s.copyAll ps report t).2.failures) :
    f ∈ report.failures ∨ f.1 ∈ ps := by
  induction ps generalizing report t with
  | nil => exact .inl hf
  | cons p ps ih =>
      rw [List.mem_cons, ← or_assoc]
      rw [copyAll_cons] at hf
      split at hf
      · exact (ih hf).imp .inl id
      · refine (ih hf).imp (fun hf => ?_) id
        exact (List.mem_append.1 hf).imp id fun hf => by rw [List.mem_singleton.1 hf]

/-- A text is in its place exactly if it has been written. -/
theorem writeOutput_delivers_iff (happart : s.Apart src out) {p : Path}
    (hp : p.Leads (src ++ ks)) (hks : ks ≠ []) (code : String) (t : FileTree) :
    ((s.writeOutput p code).run t).2.textAt? (out ++ ks) = some code ↔
      ((s.writeOutput p code).run t).1 = .ok () := by
  obtain ⟨target, htarget, hleads, hend⟩ := outputPath?_leads happart.src_leads happart.out_leads hp
  unfold writeOutput
  rw [htarget]
  dsimp only
  cases hrun : (OnDisk.writeFile target code).run t with
  | mk written t' =>
      cases written with
      | error e =>
          rw [OnDisk.textAt?_of_writeFile_error hleads (hend hks) hrun]
          exact iff_of_false (fun h => by cases h) fun h => by cases h
      | ok _ =>
          rw [OnDisk.textAt?_writeFile hleads (hend hks) hrun, if_pos rfl]
          exact iff_of_true rfl rfl

/-- The text of a module is in its place after the texts have been written, unless the
module is reported. -/
theorem rewriteAll_delivers_iff (happart : s.Apart src out) {rs : List Processed}
    (hbelow : BelowSource src (rs.map (·.1))) (hdistinct : Distinct (rs.map (·.1))) {p : Path}
    (hp : p.Leads (src ++ ks)) {result : Except Failure Outcome} (hmem : (p, result) ∈ rs)
    {code : String} (houtput : result.toOption.bind (·.output?) = some code)
    (report : BatchReport) (hreport : ∀ f ∈ report.failures, f.1.components ≠ p.components)
    (t : FileTree) :
    (s.rewriteAll rs report t).1.textAt? (out ++ ks) = some code ↔
      ∀ f ∈ (s.rewriteAll rs report t).2.failures, f.1.components ≠ p.components := by
  induction rs generalizing report t with
  | nil => exact absurd hmem List.not_mem_nil
  | cons r rs ih =>
      obtain ⟨hr, hrest⟩ := List.pairwise_cons.1 hdistinct
      rw [BelowSource, List.map_cons, List.forall_mem_cons] at hbelow
      obtain ⟨⟨ms, hms, hleads, -⟩, hbelow⟩ := hbelow
      rcases List.mem_cons.1 hmem with rfl | hmem'
      · obtain rfl := List.append_cancel_left (hleads.names_eq hp rfl)
        -- the others leave the place alone, and are reported as themselves
        have hkept : ∀ report t, (s.rewriteAll rs report t).1.textAt? (out ++ ms) =
            t.textAt? (out ++ ms) := by
          refine rewriteAll_keeps (R := OnDisk.Same (·.textAt? (out ++ ms))) fun r hr' text _ => ?_
          obtain ⟨ks, -, hleads', -⟩ := hbelow r.1 (List.mem_map_of_mem hr')
          have hne := Ne.symm (hr r.1 (List.mem_map_of_mem hr'))
          exact (happart.keeps_elsewhere hleads' (ne_of_components_ne hp hleads' hne)).1 text
        have hwritten := writeOutput_delivers_iff happart hp hms code t
        rw [rewriteAll_cons, houtput]
        dsimp only
        cases hrun : (s.writeOutput p code).run t with
        | mk written t₁ =>
            rw [hrun] at hwritten
            dsimp only at hwritten
            rw [hkept, hwritten]
            cases written with
            | error e =>
                refine iff_of_false (fun h => by cases h) fun hnot => hnot (p, e) ?_ rfl
                exact rewriteAll_failures (List.mem_append_right _ List.mem_cons_self)
            | ok _ =>
                refine iff_of_true rfl fun f hf => ?_
                rcases rewriteAll_failures_paths hf with hf | hf
                · exact hreport f hf
                · exact Ne.symm (hr f.1 hf)
      · have hne := hr p (List.mem_map_of_mem (f := (·.1)) hmem')
        obtain ⟨p', result'⟩ := r
        have hreported : ∀ written, ∀ f ∈ (reportWritten report p' written).failures,
            f.1.components ≠ p.components := by
          intro written f hf
          rcases reportWritten_failures_paths hf with hf | rfl
          · exact hreport f hf
          · exact hne
        rw [rewriteAll_cons]
        split <;> exact ih hbelow hrest hmem' _ (hreported _) _

/-- A batch has delivered what a module has come to, unless it reports the module. -/
theorem Prepared.batch_delivers_iff {changes : List (Path × PathChange)} {t : FileTree}
    (h : Prepared s src out changes t) {p : Path} (hp : p.Leads (src ++ ks))
    {result : Except Failure Outcome} (hmem : (p, result) ∈ s.batchResults changes t)
    {code : String} (houtput : result.toOption.bind (·.output?) = some code) :
    (s.applyBatch changes t).1.textAt? (out ++ ks) = some code ↔
      ∀ f ∈ (s.applyBatch changes t).2.2.failures, f.1.components ≠ p.components := by
  have hmodule := (h.mem_batchResults hmem).2
  have hrewritten := rewriteAll_delivers_iff h.apart h.belowSource_batchResults
    (batchResults_distinct s changes t) hp hmem houtput
    { pruned := (noteChanges changes {} s t).2.2.1 } (fun f hf => absurd hf List.not_mem_nil)
    (noteChanges changes {} s t).1
  rw [← rewrittenIn] at hrewritten
  -- the copies go to other places, and are reported as other files
  have hkept : ∀ report t', (s.copyAll ((noteChanges changes {} s t).2.2.2.files false).toList
      report t').1.textAt? (out ++ ks) = t'.textAt? (out ++ ks) :=
    copyAll_keeps (R := OnDisk.Same (·.textAt? (out ++ ks))) fun p' hp' =>
      (h.keeps_copied hp hmodule hp').2
  obtain ⟨htree, hreport⟩ := Prod.mk.inj h.applyBatch_copies
  rw [htree, hreport, hkept, hrewritten]
  refine ⟨fun hnot f hf => ?_, fun hnot f hf => hnot f (copyAll_failures hf)⟩
  rcases copyAll_failures_paths hf with hf | hf
  · exact hnot f hf
  · exact (h.keeps_copied hp hmodule hf).1

/-! ## The turns of a job -/

theorem build_turns_processed (s : Session) (write : Bool) (t : FileTree) :
    ((Job.build write t).turns s).map Turn.processed = s.buildResults t := by
  unfold Job.turns buildResults
  dsimp only
  cases s.sourceFiles t with
  | error e => rfl
  | ok files => exact turns_processed s t _ _

theorem Job.result_of_turn {job : Job} {u : Turn} (hu : u ∈ job.turns s) :
    ∃ b, u.result = (u.before.process (job.tree s) b u.file).2 := by
  cases job with
  | batch changes t => exact (between_lastTurns (covers_inOrder _ _ _) hu).result
  | build write t =>
      unfold Job.turns at hu
      dsimp only at hu
      cases hfiles : s.sourceFiles t with
      | error e =>
          rw [hfiles] at hu
          exact absurd hu List.not_mem_nil
      | ok files =>
          rw [hfiles] at hu
          exact (between_lastTurns (covers_inOrder _ _ _) hu).result

/-- What is cached of an expansion is its text, and a digest of what it was read from. -/
theorem Job.entry_of_expanded {job : Job} {u : Turn} (hu : u ∈ job.turns s) {code : String}
    (hresult : u.result = .ok (.expanded code)) {m : CachedModule}
    (hm : u.before.entryNow? (job.tree s) u.file = some m) :
    m.output = code ∧
      ∃ text, (job.tree s).readText u.file = .ok text ∧ m.fingerprint = Text.digest text := by
  obtain ⟨text, x, htext, hexpand, rfl⟩ := entryNow?_eq_some.1 hm
  obtain ⟨b, hb⟩ := Job.result_of_turn hu
  have hforced : (u.before.process (job.tree s) b u.file).2 ≠ .ok .fresh := by
    rw [← hb, hresult]
    intro h
    cases h
  rw [process_eq_forced hforced, process_forced htext, hexpand, hresult] at hb
  cases hb
  exact ⟨rfl, text, htext, rfl⟩

/-! ## The last expansion -/

/-- The last expansion of a module that is recalled: the jobs before it, the job that it is
of, the text that was expanded, and the code that it came to. -/
inductive LastExpanded (s : Session) (q : Path) (past : List Job) (job : Job)
    (text code : String) : List Job → Prop
  | now {u : Turn} (hu : u ∈ job.turns (s.after past)) (hfile : u.file.components = q.components)
      (htext : (job.tree (s.after past)).readText u.file = .ok text)
      (hresult : u.result = .ok (.expanded code)) :
      LastExpanded s q past job text code (job :: past)
  | before {earlier : List Job} {later : Job} (h : LastExpanded s q past job text code earlier)
      (hgone : later.gone q = false)
      (hturns : ∀ u ∈ later.turns (s.after earlier), u.file.components = q.components →
        u.result = .ok .fresh ∨ ∃ e, u.result = .error e) :
      LastExpanded s q past job text code (later :: earlier)

theorem exists_lastExpanded {jobs : List Job} {m : CachedModule} (hm : Recalls s q jobs m) :
    ∃ past job text, LastExpanded s q past job text m.output jobs ∧
      m.fingerprint = Text.digest text := by
  induction hm with
  | expanded hu hfile hresult hm =>
      obtain ⟨rfl, text, htext, hdigest⟩ := Job.entry_of_expanded hu hresult hm
      exact ⟨_, _, text, .now hu hfile htext hresult, hdigest⟩
  | spared _ hgone hturns ih =>
      obtain ⟨past, job, text, hlast, hdigest⟩ := ih
      exact ⟨past, job, text, .before hlast hgone hturns, hdigest⟩

/-- Is the code in its place after the job? A batch tells by its report. -/
def Job.Delivers (s : Session) (q : Path) (place : List String) (code : String) : Job → Prop
  | .build write tree => (s.build write tree).1.1.textAt? place = some code
  | .batch changes tree =>
      ∀ f ∈ (s.applyBatch changes tree).2.2.failures, f.1.components ≠ q.components

section

variable (h : Begins s src out) {earlier : List Job} (hearlier : ∀ job ∈ earlier, job.Fits src)
  {job : Job} (hjob : job.Fits src) (hq : q.Leads (src ++ ks))
include h hearlier hjob hq

theorem Begins.turn_source {u : Turn} (hu : u ∈ job.turns (s.after earlier))
    (hfile : u.file.components = q.components) :
    u.file.Leads (src ++ ks) ∧ s.isModule q = true := by
  obtain ⟨hroot, hconfiguration, hcached, -⟩ := h.after_same hearlier
  have hapart := h.apart.congr hroot hconfiguration
  suffices hsource : ∃ ms, u.file.Leads (src ++ ms) ∧ (s.after earlier).isModule u.file = true by
    obtain ⟨ms, hleads, hmodule⟩ := hsource
    rw [isModule_congr hconfiguration, isModule_of_components hfile] at hmodule
    obtain rfl := List.append_cancel_left (hleads.names_eq hq hfile)
    exact ⟨hleads, hmodule⟩
  cases job with
  | build write t =>
      have hmem : u.processed ∈ (s.after earlier).buildResults t := by
        rw [← build_turns_processed _ write t]
        exact List.mem_map_of_mem hu
      obtain ⟨files, hfiles, hmem, hmodule⟩ := mem_buildResults hmem
      obtain ⟨ms, -, hleads, -⟩ := belowSource_sourceFiles hapart hjob hfiles _ hmem
      exact ⟨ms, hleads, hmodule⟩
  | batch changes t =>
      have hprepared := h.prepared hroot hconfiguration hcached hjob
      obtain ⟨⟨ms, -, hleads, -⟩, hmodule⟩ := hprepared.batchTurns_source hu
      exact ⟨ms, hleads, hmodule⟩

/-- A job leaves the place of a module alone that comes to nothing, and is not told to be
gone. -/
theorem Begins.leaves_of_idle (hmodule : s.isModule q = true) (hgone : job.gone q = false)
    (hturns : ∀ u ∈ job.turns (s.after earlier), u.file.components = q.components →
      u.result = .ok .fresh ∨ ∃ e, u.result = .error e) :
    (job.leaves (s.after earlier)).textAt? (out ++ ks) = job.given.textAt? (out ++ ks) := by
  obtain ⟨hroot, hconfiguration, hcached, -⟩ := h.after_same hearlier
  rw [← isModule_congr hconfiguration] at hmodule
  cases job with
  | build write t =>
      refine build_leaves_of_idle (h.apart.congr hroot hconfiguration) hq hmodule hjob write ?_
      rw [← build_turns_processed _ write t, List.forall_mem_map]
      exact fun u hu hsame => Turn.output?_of_idle (hturns u hu hsame)
  | batch changes t =>
      have hprepared := h.prepared hroot hconfiguration hcached hjob
      refine hprepared.batch_leaves_of_idle hq hmodule hgone ?_
      rw [← batchTurns_processed, List.forall_mem_map]
      exact fun u hu hsame => Turn.output?_of_idle (hturns u hu hsame)

theorem Begins.delivers_iff {u : Turn} (hu : u ∈ job.turns (s.after earlier))
    (hfile : u.file.components = q.components) {code : String}
    (hresult : u.result = .ok (.expanded code)) :
    (job.leaves (s.after earlier)).textAt? (out ++ ks) = some code ↔
      job.Delivers (s.after earlier) q (out ++ ks) code := by
  obtain ⟨hroot, hconfiguration, hcached, -⟩ := h.after_same hearlier
  have hleads := (h.turn_source hearlier hjob hq hu hfile).1
  cases job with
  | build write t => exact Iff.rfl
  | batch changes t =>
      have hprepared := h.prepared hroot hconfiguration hcached hjob
      have hmem : (u.file, u.result) ∈ (s.after earlier).batchResults changes t := by
        rw [← batchTurns_processed]
        exact List.mem_map_of_mem (f := Turn.processed) hu
      have houtput : u.result.toOption.bind (·.output?) = some code := by
        rw [hresult]
        rfl
      have hdelivers := hprepared.batch_delivers_iff hleads hmem houtput
      rw [hfile] at hdelivers
      exact hdelivers

/-- A build that succeeds delivers. -/
theorem Begins.delivers_of_build {t : FileTree} {report : BuildReport}
    (hbuild : job = .build true t)
    (hreport : ((s.after earlier).build true t).2 = .ok report) {u : Turn}
    (hu : u ∈ job.turns (s.after earlier)) (hfile : u.file.components = q.components)
    {code : String} (hresult : u.result = .ok (.expanded code)) :
    job.Delivers (s.after earlier) q (out ++ ks) code := by
  obtain ⟨hroot, hconfiguration, -, -⟩ := h.after_same hearlier
  have hleads := (h.turn_source hearlier hjob hq hu hfile).1
  subst hbuild
  have hmem : (u.file, u.result) ∈ (s.after earlier).buildResults t := by
    rw [← build_turns_processed _ true t]
    exact List.mem_map_of_mem (f := Turn.processed) hu
  exact build_delivers (h.apart.congr hroot hconfiguration) hjob hreport hleads hmem
    (by rw [hresult]; rfl)

end

/-- As long as nobody else changes its place, the output tree has what a module has come to
exactly if the job of its last expansion has delivered it. -/
theorem Begins.textAt?_iff_delivers (h : Begins s src out) (hq : q.Leads (src ++ ks))
    {jobs past : List Job} {job : Job} {text code : String} (hfits : ∀ job ∈ jobs, job.Fits src)
    (hlast : LastExpanded s q past job text code jobs) {now : FileTree}
    (hundisturbed : s.Undisturbed (out ++ ks) jobs now) :
    s.isModule q = true ∧
      (now.textAt? (out ++ ks) = some code ↔ job.Delivers (s.after past) q (out ++ ks) code) ∧
      ∀ t report, job = .build true t → ((s.after past).build true t).2 = .ok report →
        job.Delivers (s.after past) q (out ++ ks) code := by
  induction hlast generalizing now with
  | now hu hfile htext hresult =>
      obtain ⟨hjob, hpast⟩ := List.forall_mem_cons.1 hfits
      rw [hundisturbed.1]
      refine ⟨(h.turn_source hpast hjob hq hu hfile).2,
        h.delivers_iff hpast hjob hq hu hfile hresult, fun t report hbuild hreport => ?_⟩
      exact h.delivers_of_build hpast hjob hq hbuild hreport hu hfile hresult
  | before hlast hgone hturns ih =>
      obtain ⟨hjob, hearlier⟩ := List.forall_mem_cons.1 hfits
      obtain ⟨hmodule, hdelivers⟩ := ih hearlier hundisturbed.2
      rw [hundisturbed.1, h.leaves_of_idle hearlier hjob hq hmodule hgone hturns]
      exact ⟨hmodule, hdelivers⟩

/-- A module that is found fresh after builds and batches has the text of its last
expansion, as far as digests tell, and the cache has what that expansion came to. The
output tree has it exactly if the job of the expansion has delivered it. A batch has,
unless it reports the module, and a build that succeeds has. -/
theorem fresh_delivered_iff (h : Begins s src out) {jobs : List Job}
    (hfits : ∀ job ∈ jobs, job.Fits src) (hq : q.Leads (src ++ ks)) {now : FileTree}
    (hundisturbed : s.Undisturbed (out ++ ks) jobs now)
    (hfresh : ((s.after jobs).process now false q).2 = .ok .fresh) :
    ∃ past job text m, LastExpanded s q past job text m.output jobs ∧
      (s.after jobs).cache.get? q = some m ∧
      (∃ text', now.readText q = .ok text' ∧ Text.digest text' = Text.digest text) ∧
      (now.textAt? (out ++ ks) = some m.output ↔
        job.Delivers (s.after past) q (out ++ ks) m.output) ∧
      ∀ t report, job = .build true t → ((s.after past).build true t).2 = .ok report →
        job.Delivers (s.after past) q (out ++ ks) m.output := by
  obtain ⟨-, text', htext', hsame⟩ := process_fresh_iff.1 hfresh
  obtain ⟨m, hm, hdigest'⟩ := (Option.any_eq_true _ _).1 hsame
  obtain ⟨past, job, text, hlast, hdigest⟩ := exists_lastExpanded ((h.get?_after_iff hfits).1 hm)
  obtain ⟨-, hdelivers, hbuilt⟩ := h.textAt?_iff_delivers hq hfits hlast hundisturbed
  refine ⟨past, job, text, m, hlast, hm, ⟨text', htext', ?_⟩, hdelivers, hbuilt⟩
  rw [← hdigest, beq_iff_eq.1 hdigest']

/-- A page that loads its menus, in a project that is built and then gets a style sheet. -/
theorem fresh_delivered_ofProject :
    let files := [("a.ts", "import\x7bloadMenus as m\x7dfrom\"pages.macro\";m(\".\",\"/a\")"),
      ("index.tsx", "")]
    let sheet := ofProject.srcDir.join "b.css"
    let menus := ofProject.srcDir.join "a.ts"
    let first : Job := .build true (unbuilt files)
    let changed := (first.leaves ofProject).set ["p", "src", "b.css"] (.file "x")
    let second : Job := .batch [(sheet, .created)] changed
    let now := second.leaves (ofProject.after [first])
    Begins ofProject ["p", "src"] ["p", ".pagemacro", "out"] ∧
    (∀ job ∈ [second, first], job.Fits ["p", "src"]) ∧
    ofProject.Undisturbed ["p", ".pagemacro", "out", "a.ts"] [second, first] now ∧
    ((ofProject.after [second, first]).process now false menus).2 = .ok .fresh ∧
    ∃ m, (ofProject.after [second, first]).cache.get? menus = some m ∧
      now.textAt? ["p", ".pagemacro", "out", "a.ts"] = some m.output := by
  intro files sheet menus first changed second now
  obtain ⟨hbuilds, hdirectory, hundisturbed, hfresh, hunreported⟩ :
      ofProject.Builds (unbuilt files) ∧
      changed.textAt? ["p", "src"] = none ∧
      ofProject.Undisturbed ["p", ".pagemacro", "out", "a.ts"] [second, first] now ∧
      ((ofProject.after [second, first]).process now false menus).2 = .ok .fresh ∧
      ((ofProject.after [first]).applyBatch [(sheet, .created)] changed).2.2.failures = [] := by
    decide +kernel
  have hfits : ∀ job ∈ [second, first], job.Fits ["p", "src"] := by
    rw [List.forall_mem_cons, List.forall_mem_singleton]
    obtain ⟨hleads, hend⟩ := ofProject_apart.src_leads.join_name (by decide : Path.IsName "b.css")
    exact ⟨⟨List.forall_mem_singleton.2 ⟨_, hleads, hend, fun h => by cases h⟩, hdirectory⟩,
      unbuilt_sound ⟨by decide, by decide⟩⟩
  have hmenus : menus.Leads (["p", "src"] ++ ["a.ts"]) :=
    (ofProject_apart.src_leads.join_name (by decide)).1
  obtain ⟨past, job, text, m, hlast, hm, -, hdelivers, hbuilt⟩ :=
    fresh_delivered_iff ofProject_begins hfits hmenus hundisturbed hfresh
  refine ⟨ofProject_begins, hfits, hundisturbed, hfresh, m, hm, hdelivers.2 ?_⟩
  cases hlast with
  | now =>
      intro f hf
      rw [hunreported] at hf
      exact absurd hf List.not_mem_nil
  | before hlast =>
      cases hlast with
      | before hlast => cases hlast
      | now =>
          obtain ⟨report, hreport⟩ := hbuilds.eq_ok
          exact hbuilt _ report rfl (congrArg Prod.snd hreport)

/-- A directory is in the place of a module that comes then. The module is expanded and its
text cannot be written, which is reported. The next time the module is fresh: neither an
expansion nor a batch that is told of it again writes the text, or reports anything. -/
theorem fresh_undelivered :
    let module := "import\x7bloadMenus as m\x7dfrom\"pages.macro\";m(\".\",\"/a\")"
    let tree : FileTree := .dir [("p", .dir [("src", flat [("index.tsx", "")]),
      (".pagemacro", .dir [("out", .dir [("a.ts", .dir [])])])])]
    let menus : Path := ⟨"/p/src/a.ts"⟩
    let place := ["p", ".pagemacro", "out", "a.ts"]
    let first : Job := .build true tree
    let changed := (first.leaves ofProject).set ["p", "src", "a.ts"] (.file module)
    let second : Job := .batch [(menus, .created)] changed
    let now := second.leaves (ofProject.after [first])
    let again := (ofProject.after [second, first]).applyBatch [(menus, .modified)] now
    (ofProject.build true tree).2.toOption.isSome = true ∧
    ofProject.Undisturbed place [second, first] now ∧
    ((ofProject.after [first]).applyBatch [(menus, .created)] changed).2.2.failures =
      [(menus, .unwritable ⟨"/p/.pagemacro/out/a.ts"⟩ .isDirectory)] ∧
    ((ofProject.after [second, first]).process now false menus).2 = .ok .fresh ∧
    ((ofProject.after [second, first]).cache.get? menus).isSome = true ∧
    now.textAt? place = none ∧
    again.2.2.isEmpty = true ∧ again.1.textAt? place = none := by
  decide +kernel

end Session

end SiteMacros
