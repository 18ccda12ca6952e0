import SiteMacros.Proofs.Retry
import SiteMacros.Proofs.Sources
import SiteMacros.Session.Build

/-!
# What a build puts into the output tree

Steps that succeed put texts into the places of source files and leave everything
else alone. What they have put where is a function of the address (`Placed`), so
that steps one after another are put together by asking the later one first.

A build that succeeds has put into the place of each module the text that
processing the module has come to, if it has come to one, and into the place of any
other source file a copy of it (`build_placed`).
-/

namespace SiteMacros

namespace OnDisk

variable {α β : Type}

theorem run_bind (m : OnDisk α) (f : α → OnDisk β) (t : FileTree) :
    (m >>= f).run t =
      match m.run t with
      | (.ok a, t') => (f a).run t'
      | (.error e, t') => (.error e, t') := by
  show (ExceptT.bind m f).run t = _
  simp only [ExceptT.bind, ExceptT.mk, ExceptT.run, bind, StateT.bind]
  cases m t with
  | mk result t' => cases result <;> rfl

theorem run_bind_ok {m : OnDisk α} {f : α → OnDisk β} {t t'' : FileTree} {b : β}
    (h : (m >>= f).run t = (.ok b, t'')) :
    ∃ a t', m.run t = (.ok a, t') ∧ (f a).run t' = (.ok b, t'') := by
  rw [run_bind] at h
  cases hm : m.run t with
  | mk result t' =>
      rw [hm] at h
      cases result with
      | error e => exact nomatch congrArg Prod.fst h
      | ok a => exact ⟨a, t', rfl, h⟩

theorem run_change (failure : FileFault → Failure) (f : FileTree → FileTree.Changed)
    (t : FileTree) :
    (change failure f).run t =
      match f t with
      | (t', .ok ()) => (.ok (), t')
      | (t', .error fault) => (.error (failure fault), t') := by
  have hget : (get : OnDisk FileTree).run t = (.ok t, t) := rfl
  rw [change, run_bind, hget]
  dsimp only
  cases f t with
  | mk t' result => cases result <;> rfl

theorem run_look (failure : FileFault → Failure) (f : FileTree → Except FileFault α)
    (t : FileTree) :
    (look failure f).run t =
      match f t with
      | .ok a => (.ok a, t)
      | .error fault => (.error (failure fault), t) := by
  have hrun : (look failure f).run t =
      ((match f t with
        | .ok a => return a
        | .error fault => throw (failure fault)) : OnDisk α).run t := rfl
  rw [hrun]
  cases f t <;> rfl

theorem change_ok {failure : FileFault → Failure} {f : FileTree → FileTree.Changed}
    {t t' : FileTree} (h : (change failure f).run t = (.ok (), t')) : f t = (t', .ok ()) := by
  rw [run_change] at h
  split at h
  · next t'' hf =>
      cases h
      exact hf
  · exact nomatch congrArg Prod.fst h

theorem attempt_ok {f : FileTree → Except FileFault FileTree} {t t' : FileTree}
    (h : attempt f t = (t', .ok ())) : f t = .ok t' := by
  rw [attempt] at h
  split at h
  · next t'' hf =>
      cases h
      exact hf
  · exact nomatch congrArg Prod.snd h

theorem look_ok {failure : FileFault → Failure} {f : FileTree → Except FileFault α}
    {t t' : FileTree} {a : α} (h : (look failure f).run t = (.ok a, t')) :
    t' = t ∧ f t = .ok a := by
  rw [run_look] at h
  split at h
  · next a' hf =>
      cases h
      exact ⟨rfl, hf⟩
  · exact nomatch congrArg Prod.fst h

theorem textAt?_makeAround {file : Path} {t t' : FileTree}
    (h : (makeAround file).run t = (.ok (), t')) (ns : List String) :
    t'.textAt? ns = t.textAt? ns := by
  rw [makeAround] at h
  split at h
  · next dir _ =>
      have hdirs := FileTree.textAt?_makeDirs t dir ns
      rw [change_ok h] at hdirs
      exact hdirs
  · cases h
    rfl

theorem textAt?_writeFile {file : Path} {text : String} {ms : List String} (hp : file.Leads ms)
    (hend : file.EndsInName) {t t' : FileTree} (h : (writeFile file text).run t = (.ok (), t'))
    (ns : List String) : t'.textAt? ns = if ns = ms then some text else t.textAt? ns := by
  obtain ⟨_, t₁, hmade, h⟩ := run_bind_ok h
  rw [FileTree.textAt?_writeText hp hend (attempt_ok (change_ok h)), textAt?_makeAround hmade]

/-- A copy has the text that the file has. -/
theorem textAt?_copyFile {file target : Path} {ks ms : List String} (hfile : file.Leads ks)
    (hfile' : file.EndsInName) (htarget : target.Leads ms) (htarget' : target.EndsInName)
    (hne : ks ≠ ms) {t t' : FileTree} (h : (copyFile file target).run t = (.ok (), t')) :
    ∃ text, t.textAt? ks = some text ∧
      ∀ ns, t'.textAt? ns = if ns = ms then some text else t.textAt? ns := by
  obtain ⟨_, t₁, hmade, h₁⟩ := run_bind_ok h
  obtain ⟨_, t₂, hfirst, h₂⟩ := run_bind_ok h₁
  obtain ⟨_, t₃, hemptied, h₃⟩ := run_bind_ok h₂
  obtain ⟨text, t₄, hsecond, hcopied⟩ := run_bind_ok h₃
  obtain ⟨rfl, -⟩ := look_ok hfirst
  obtain ⟨rfl, hread⟩ := look_ok hsecond
  have hbefore := textAt?_makeAround hmade
  have hwritten := FileTree.textAt?_writeText htarget htarget' (attempt_ok (change_ok hemptied))
  have hwritten' := FileTree.textAt?_writeText htarget htarget' (attempt_ok (change_ok hcopied))
  rw [FileTree.readText_eq_ok_iff hfile hfile', hwritten, if_neg hne, hbefore] at hread
  refine ⟨text, hread, fun ns => ?_⟩
  rw [hwritten', hwritten, hbefore]
  split <;> rfl

/-- Whatever is at a place, or nothing: afterwards there are no texts at or below
it. -/
theorem textAt?_discard {p : Path} {ms : List String} (hp : p.Leads ms) (hend : p.EndsInName)
    (hms : ms ≠ []) (t : FileTree) (ns : List String) :
    ((discard p).run t).2.textAt? ns = if ms <+: ns then none else t.textAt? ns := by
  have hrun : ((discard p).run t).2 =
      if t.isDir p then (t.removeTree p).1 else (attempt (·.removeFile p) t).1 := rfl
  rw [hrun]
  cases hnode : t.get? ms with
  | none =>
      have hdir : t.isDir p = false := by
        rw [FileTree.isDir]
        split
        · next es hes =>
            have hsome := FileTree.find_eq_ok hp hes
            rw [hnode] at hsome
            cases hsome
        · rfl
      rw [hdir, if_neg Bool.false_ne_true, attempt]
      split
      · next t' hremoved => exact FileTree.textAt?_removeFile hp hms hremoved ns
      · dsimp only
        split
        · next hunder =>
            obtain ⟨rest, rfl⟩ := hunder
            exact FileTree.textAt?_append_of_none hnode rest
        · rfl
  | some node =>
      have hfind := (FileTree.find_eq_ok_iff hp hend).2 hnode
      cases node with
      | dir es =>
          rw [FileTree.isDir, hfind]
          exact FileTree.textAt?_removeTree hp hms hend hnode ns
      | file text =>
          have hremoved : t.removeFile p = .ok (t.erase ms) := by
            rw [FileTree.removeFile, FileTree.address_of_get? hp hnode (.inr hend)]
            dsimp only [bind, Except.bind]
            rw [hnode]
          rw [FileTree.isDir, hfind, attempt, hremoved]
          exact FileTree.textAt?_removeFile hp hms hremoved ns

end OnDisk

namespace Session

/-- The tree `t'` is `t` with the texts `new` in the places of source files, and is
as it was outside the output tree. -/
structure Placed (out : List String) (new : List String → Option String) (t t' : FileTree) :
    Prop where
  inside : ∀ ns, t'.textAt? (out ++ ns) = (new ns).or (t.textAt? (out ++ ns))
  outside : ∀ ns, ¬ out <+: ns → t'.textAt? ns = t.textAt? ns

namespace Placed

variable {out : List String} {new new' : List String → Option String} {t t' t'' : FileTree}

theorem refl (out : List String) (t : FileTree) : Placed out (fun _ => none) t t :=
  ⟨fun _ => rfl, fun _ _ => rfl⟩

theorem trans (h : Placed out new t t') (h' : Placed out new' t' t'') :
    Placed out (fun ns => (new' ns).or (new ns)) t t'' where
  inside ns := by rw [h'.inside, h.inside, Option.or_assoc]
  outside ns hns := by rw [h'.outside ns hns, h.outside ns hns]

theorem congr (h : Placed out new t t') (heq : ∀ ns, new ns = new' ns) : Placed out new' t t' :=
  ⟨fun ns => by rw [h.inside, heq], h.outside⟩

theorem of_write {ks : List String} {text : String}
    (h : ∀ ns, t'.textAt? ns = if ns = out ++ ks then some text else t.textAt? ns) :
    Placed out (fun ns => if ns = ks then some text else none) t t' where
  inside ns := by
    rw [h]
    simp only [List.append_cancel_left_eq]
    split <;> rfl
  outside ns hns := by
    rw [h, if_neg]
    rintro rfl
    exact hns (List.prefix_append out ks)

end Placed

variable {s : Session} {src out : List String}

/-- The path of the source file that has an address. -/
theorem Apart.below_leads (h : s.Apart src out) {ns : List String}
    (hns : ∀ n ∈ ns, Path.IsName n) :
    (s.srcDir.below ns).Leads (src ++ ns) ∧ (ns ≠ [] → (s.srcDir.below ns).EndsInName) :=
  h.src_leads.below hns

theorem writeOutput_placed (h : s.Apart src out) {p : Path} {ks : List String}
    (hp : p.Leads (src ++ ks)) (hks : ks ≠ []) {text : String} {t t' : FileTree}
    (hrun : (s.writeOutput p text).run t = (.ok (), t')) :
    Placed out (fun ns => if ns = ks then some text else none) t t' := by
  obtain ⟨q, hq, hleads, hend⟩ := outputPath?_leads h.src_leads h.out_leads hp
  unfold writeOutput at hrun
  rw [hq] at hrun
  exact .of_write (OnDisk.textAt?_writeFile hleads (hend hks) hrun)

theorem Apart.src_ne_out (h : s.Apart src out) (ks ms : List String) :
    src ++ ks ≠ out ++ ms :=
  fun heq => h.not_below ks (heq ▸ List.prefix_append out ms)

theorem copyOutput_placed (h : s.Apart src out) {p : Path} {ks : List String}
    (hp : p.Leads (src ++ ks)) (hend : p.EndsInName) (hks : ks ≠ []) {t t' : FileTree}
    (hrun : (s.copyOutput p).run t = (.ok (), t')) :
    Placed out (fun ns => if ns = ks then t.textAt? (src ++ ks) else none) t t' := by
  obtain ⟨q, hq, hleads, hend'⟩ := outputPath?_leads h.src_leads h.out_leads hp
  unfold copyOutput at hrun
  rw [hq] at hrun
  obtain ⟨text, htext, hcopied⟩ :=
    OnDisk.textAt?_copyFile hp hend hleads (hend' hks) (h.src_ne_out ks ks) hrun
  rw [htext]
  exact .of_write hcopied

/-! ## Processed modules -/

end Session

/-- Does the path name the address? -/
def Path.names (p : Path) (ns : List String) : Bool :=
  p.components == .root :: ns.map .name

theorem Path.Leads.names_iff {p : Path} {ks : List String} (hp : p.Leads ks) {ns : List String} :
    p.names ns = true ↔ ks = ns := by
  rw [Path.names, beq_iff_eq, hp.components_eq, List.cons.injEq]
  exact ⟨fun h => Path.map_name_inj h.2, fun h => ⟨rfl, by rw [h]⟩⟩

/-- The text that processing has come to for the module at an address. -/
def textFor? (rs : List Processed) (ns : List String) : Option String :=
  (rs.find? (·.1.names ns)).bind fun r => r.2.toOption.bind (·.output?)

theorem textFor?_cons {r : Processed} {base ks : List String} (hr : r.1.Leads (base ++ ks))
    (rs : List Processed) (ns : List String) :
    textFor? (r :: rs) (base ++ ns) =
      if ns = ks then r.2.toOption.bind (·.output?) else textFor? rs (base ++ ns) := by
  rw [textFor?, List.find?_cons]
  split
  · next hself =>
      rw [if_pos (List.append_cancel_left (hr.names_iff.1 hself)).symm]
      rfl
  · next hother =>
      rw [if_neg, textFor?]
      rintro rfl
      rw [hr.names_iff.2 rfl] at hother
      exact nomatch hother

theorem textFor?_eq_none {rs : List Processed} {ns : List String}
    (h : ∀ r ∈ rs, r.1.names ns = false) : textFor? rs ns = none := by
  rw [textFor?, List.find?_eq_none.2 fun r hr => by rw [h r hr]; exact Bool.false_ne_true]
  rfl

namespace Session

variable {s : Session} {src out : List String}

/-- The paths lead to places below the root of the sources. -/
def BelowSource (src : List String) (ps : List Path) : Prop :=
  ∀ p ∈ ps, ∃ ks, ks ≠ [] ∧ p.Leads (src ++ ks) ∧ p.EndsInName

/-- No two of the paths have the same components. -/
def Distinct (ps : List Path) : Prop :=
  ps.Pairwise fun p q => p.components ≠ q.components

/-- A processed module has no other result. -/
theorem textFor?_rest {r : Processed} {rs : List Processed} {ks : List String}
    (hr : r.1.Leads ks)
    (h : ((r :: rs).map (·.1)).Pairwise fun p q => p.components ≠ q.components) :
    textFor? rs ks = none := by
  rw [List.map_cons, List.pairwise_cons] at h
  refine textFor?_eq_none fun r' hr' => ?_
  rw [Path.names, beq_eq_false_iff_ne, ← hr.components_eq]
  exact Ne.symm (h.1 r'.1 (List.mem_map_of_mem hr'))

/-- What there is after the first of the results is its output, below what the
others have come to. -/
theorem textFor?_split {p : Path} {result : Except Failure Outcome} {rs : List Processed}
    {ks : List String} (hp : p.Leads (src ++ ks))
    (hdistinct : Distinct (((p, result) :: rs).map (·.1))) (ns : List String) :
    textFor? ((p, result) :: rs) (src ++ ns) =
      (textFor? rs (src ++ ns)).or
        (if ns = ks then result.toOption.bind (·.output?) else none) := by
  rw [textFor?_cons (r := (p, result)) hp rs]
  split
  · next heq => rw [heq, textFor?_rest hp hdistinct, Option.none_or]
  · rw [Option.or_none]

theorem writeProcessed_placed (h : s.Apart src out) {rs : List Processed}
    (hbelow : BelowSource src (rs.map (·.1))) (hdistinct : Distinct (rs.map (·.1)))
    {t t' : FileTree} (hrun : (s.writeProcessed rs).run t = (.ok (), t')) :
    Placed out (fun ns => textFor? rs (src ++ ns)) t t' := by
  induction rs generalizing t with
  | nil =>
      cases hrun
      exact .refl out _
  | cons r rs ih =>
      obtain ⟨p, result⟩ := r
      rw [BelowSource, List.map_cons, List.forall_mem_cons] at hbelow
      obtain ⟨⟨ks, hks, hp, -⟩, hbelow⟩ := hbelow
      have hsplit := textFor?_split hp hdistinct
      have hdistinct' : Distinct (rs.map (·.1)) := (List.pairwise_cons.1 hdistinct).2
      rw [writeProcessed] at hrun
      cases houtput : result.toOption.bind (·.output?) with
      | none =>
          rw [houtput] at hrun
          refine (ih hbelow hdistinct' hrun).congr fun ns => ?_
          rw [hsplit, houtput, ite_self, Option.or_none]
      | some text =>
          rw [houtput] at hrun
          obtain ⟨_, t₁, hfirst, hrun⟩ := OnDisk.run_bind_ok hrun
          have hplaced := ih hbelow hdistinct' hrun
          refine ((writeOutput_placed h hp hks hfirst).trans hplaced).congr fun ns => ?_
          rw [hsplit, houtput]

/-- Is one of the paths that of an address? -/
def hasPath (ps : List Path) (ns : List String) : Bool :=
  ps.any (·.names ns)

theorem hasPath_cons (p : Path) (ps : List Path) (ns : List String) :
    hasPath (p :: ps) ns = (p.names ns || hasPath ps ns) := rfl

/-- One copy and then others. -/
theorem Placed.copied_cons (h : s.Apart src out) {p : Path} {ps : List Path} {ks : List String}
    (hp : p.Leads (src ++ ks)) {t t' t'' : FileTree}
    (hfirst : Placed out (fun ns => if ns = ks then t.textAt? (src ++ ks) else none) t t')
    (hrest : Placed out
      (fun ns => if hasPath ps (src ++ ns) then t'.textAt? (src ++ ns) else none) t' t'') :
    Placed out (fun ns => if hasPath (p :: ps) (src ++ ns) then t.textAt? (src ++ ns) else none)
      t t'' := by
  refine (hfirst.trans hrest).congr fun ns => ?_
  rw [hfirst.outside _ (h.not_below ns), hasPath_cons]
  have hnames : p.names (src ++ ns) = decide (ns = ks) := by
    rw [Bool.eq_iff_iff, hp.names_iff, decide_eq_true_iff]
    exact ⟨fun heq => (List.append_cancel_left heq).symm, fun heq => by rw [heq]⟩
  rw [hnames]
  by_cases heq : ns = ks
  · rw [if_pos heq, decide_eq_true heq, Bool.true_or, if_pos rfl, heq]
    split
    · exact Option.or_self
    · exact Option.none_or
  · rw [if_neg heq, decide_eq_false heq, Bool.false_or, Option.or_none]

theorem copies_placed (h : s.Apart src out) {ps : List Path} (hbelow : BelowSource src ps)
    {t t' : FileTree} (hrun : (ps.forM s.copyOutput : OnDisk Unit).run t = (.ok (), t')) :
    Placed out (fun ns => if hasPath ps (src ++ ns) then t.textAt? (src ++ ns) else none) t t' := by
  induction ps generalizing t with
  | nil =>
      cases hrun
      exact .refl out _
  | cons p ps ih =>
      rw [BelowSource, List.forall_mem_cons] at hbelow
      obtain ⟨⟨ks, hks, hp, hend⟩, hbelow⟩ := hbelow
      obtain ⟨_, t₁, hfirst, hrun⟩ := OnDisk.run_bind_ok hrun
      exact .copied_cons h hp (copyOutput_placed h hp hend hks hfirst) (ih hbelow hrun)

/-! ## Builds -/

theorem Apart.congr (h : s.Apart src out) {s' : Session} (hroot : s'.root = s.root)
    (hconfiguration : s'.configuration = s.configuration) : s'.Apart src out := by
  have hsrc : s'.srcDir = s.srcDir := by rw [srcDir, srcDir, hroot, hconfiguration]
  have hout : s'.outDir = s.outDir := by rw [outDir, outDir, hroot, hconfiguration]
  exact ⟨hsrc ▸ h.src_leads, hout ▸ h.out_leads, h.src_not_above, h.out_not_above⟩

theorem outputPath?_congr {s' : Session} (hroot : s'.root = s.root)
    (hconfiguration : s'.configuration = s.configuration) (p : Path) :
    s'.outputPath? p = s.outputPath? p := by
  rw [outputPath?, outputPath?, srcDir, srcDir, outDir, outDir, hroot, hconfiguration]

/-- What is done for a file is settled by the project. -/
theorem output_congr {s' : Session} (hroot : s'.root = s.root)
    (hconfiguration : s'.configuration = s.configuration) :
    (∀ p text, s'.writeOutput p text = s.writeOutput p text) ∧
      ∀ p, s'.copyOutput p = s.copyOutput p := by
  have houtput := outputPath?_congr hroot hconfiguration
  unfold writeOutput copyOutput
  exact ⟨fun p text => by rw [houtput], fun p => by rw [houtput]⟩

/-- What becomes of the modules in a build. -/
def buildResults (s : Session) (t : FileTree) : List Processed :=
  match s.sourceFiles t with
  | .error _ => []
  | .ok files => (s.processAll t (fun _ => true) (files.filter s.isModule)).2

theorem buildResults_eq {t : FileTree} {files : List Path} (hfiles : s.sourceFiles t = .ok files) :
    s.buildResults t = (s.processAll t (fun _ => true) (files.filter s.isModule)).2 := by
  unfold buildResults
  rw [hfiles]

theorem mem_buildResults {t : FileTree} {r : Processed} (hr : r ∈ s.buildResults t) :
    ∃ files, s.sourceFiles t = .ok files ∧ r.1 ∈ files ∧ s.isModule r.1 = true := by
  cases hfiles : s.sourceFiles t with
  | error e =>
      unfold buildResults at hr
      rw [hfiles] at hr
      exact absurd hr List.not_mem_nil
  | ok files =>
      rw [buildResults_eq hfiles] at hr
      have hmem := (processAll_paths_perm _ _ _ _).mem_iff.1 (List.mem_map_of_mem hr)
      exact ⟨files, rfl, List.mem_filter.1 hmem⟩

/-- The text that a build has for the source file at an address. -/
def buildText? (s : Session) (src : List String) (t : FileTree) (ns : List String) :
    Option String :=
  if s.isModule (s.srcDir.below ns) then textFor? (s.buildResults t) (src ++ ns)
  else if "node_modules" ∈ ns then none
  else t.textAt? (src ++ ns)

/-- The path of a source file leads to its address. -/
theorem Apart.leads_of_hasSource (h : s.Apart src out) {t : FileTree} (hsound : t.Sound)
    {es : List (String × FileTree)} (hes : t.get? src = some (.dir es)) {ns : List String}
    (hns : HasSource src t ns) :
    ns ≠ [] ∧ (s.srcDir.below ns).Leads (src ++ ns) ∧ (s.srcDir.below ns).EndsInName := by
  have hne := ne_nil_of_hasSource hes hns
  obtain ⟨hleads, hend⟩ := h.below_leads (isName_of_hasSource hsound hns)
  exact ⟨hne, hleads, hend hne⟩

theorem belowSource_sourceFiles (h : s.Apart src out) {t : FileTree} (hsound : t.Sound)
    {files : List Path} (hfiles : s.sourceFiles t = .ok files) : BelowSource src files := by
  obtain ⟨es, hes, -⟩ := sourceFiles_perm h hsound hfiles
  intro p hp
  obtain ⟨ns, hns, rfl⟩ := (mem_sourceFiles_iff h hsound hfiles).1 hp
  exact ⟨ns, h.leads_of_hasSource hsound hes hns⟩

theorem distinct_sourceFiles (h : s.Apart src out) {t : FileTree} (hsound : t.Sound)
    {files : List Path} (hfiles : s.sourceFiles t = .ok files) : Distinct files := by
  obtain ⟨es, hes, hperm⟩ := sourceFiles_perm h hsound hfiles
  rw [Distinct, hperm.pairwise_iff fun hne => Ne.symm hne, List.pairwise_map]
  refine (FileTree.addresses_nodup _ (hsound.get? hes)).imp_of_mem fun ha hb hne heq => hne ?_
  have ha := (h.leads_of_hasSource hsound hes ((mem_addresses_dir hsound hes).1 ha)).2.1
  have hb := (h.leads_of_hasSource hsound hes ((mem_addresses_dir hsound hes).1 hb)).2.1
  exact List.append_cancel_left (ha.names_eq hb heq)

theorem textFor?_of_not_module (h : s.Apart src out) {t : FileTree} (hsound : t.Sound)
    {files : List Path} (hfiles : s.sourceFiles t = .ok files) {rs : List Processed}
    (hrs : (rs.map (·.1)).Perm (files.filter s.isModule)) {ns : List String}
    (hns : s.isModule (s.srcDir.below ns) = false) : textFor? rs (src ++ ns) = none := by
  obtain ⟨es, hes, -⟩ := sourceFiles_perm h hsound hfiles
  refine textFor?_eq_none fun r hr => Bool.eq_false_iff.2 fun hnames => ?_
  obtain ⟨hfile, hmodule⟩ := List.mem_filter.1 (hrs.mem_iff.1 (List.mem_map_of_mem hr))
  obtain ⟨ks, hks, heq⟩ := (mem_sourceFiles_iff h hsound hfiles).1 hfile
  have hleads := (h.leads_of_hasSource hsound hes hks).2.1
  rw [← heq] at hleads
  rw [heq, List.append_cancel_left (hleads.names_iff.1 hnames), hns] at hmodule
  exact nomatch hmodule

theorem hasPath_others (h : s.Apart src out) {t : FileTree} (hsound : t.Sound)
    {files : List Path} (hfiles : s.sourceFiles t = .ok files) (ns : List String) :
    hasPath (files.filter (!s.isModule ·)) (src ++ ns) = true ↔
      HasSource src t ns ∧ s.isModule (s.srcDir.below ns) = false := by
  obtain ⟨es, hes, -⟩ := sourceFiles_perm h hsound hfiles
  rw [hasPath, List.any_eq_true]
  constructor
  · rintro ⟨p, hp, hnames⟩
    obtain ⟨hfile, hmodule⟩ := List.mem_filter.1 hp
    obtain ⟨ks, hks, heq⟩ := (mem_sourceFiles_iff h hsound hfiles).1 hfile
    have hleads := (h.leads_of_hasSource hsound hes hks).2.1
    rw [← heq] at hleads
    rw [← List.append_cancel_left (hleads.names_iff.1 hnames), ← heq]
    exact ⟨hks, by simpa using hmodule⟩
  · rintro ⟨hns, hmodule⟩
    have hfile := (mem_sourceFiles_iff h hsound hfiles).2 ⟨ns, hns, rfl⟩
    refine ⟨_, List.mem_filter.2 ⟨hfile, by rw [hmodule]; rfl⟩, ?_⟩
    exact (h.leads_of_hasSource hsound hes hns).2.1.names_iff.2 rfl

theorem build_eq_error {t : FileTree} {e : Failure} (hfiles : s.sourceFiles t = .error e) :
    s.build true t = ((t, s), .error e) := by
  unfold build
  rw [hfiles]

theorem build_eq {t : FileTree} {files : List Path} (hfiles : s.sourceFiles t = .ok files) :
    s.build true t =
      let processed := s.processAll t (fun _ => true) (files.filter s.isModule)
      let others := files.filter (!s.isModule ·)
      let writing : OnDisk BuildReport := do
        processed.1.writeProcessed processed.2
        others.forM processed.1.copyOutput
        return { BuildReport.ofProcessed processed.2 with copied := others.length }
      (((writing.run t).2, processed.1), (writing.run t).1) := by
  unfold build
  rw [hfiles]
  dsimp only
  rw [List.partition_eq_filter_filter]
  rfl

/-- A build that succeeds, step by step: the files and the results, the tree between
writing and copying, and what there is in the end. -/
structure Built (s : Session) (t : FileTree) (files : List Path) (rs : List Processed)
    (between t' : FileTree) (s' : Session) (report : BuildReport) : Prop where
  listed : s.sourceFiles t = .ok files
  processed : s.processAll t (fun _ => true) (files.filter s.isModule) = (s', rs)
  written : (s'.writeProcessed rs).run t = (.ok (), between)
  copied : ((files.filter (!s.isModule ·)).forM s'.copyOutput : OnDisk Unit).run between =
    (.ok (), t')
  reported : report =
    { BuildReport.ofProcessed rs with copied := (files.filter (!s.isModule ·)).length }

theorem exists_built {t t' : FileTree} {s' : Session} {report : BuildReport}
    (h : s.build true t = ((t', s'), .ok report)) :
    ∃ files rs between, s.Built t files rs between t' s' report := by
  cases hfiles : s.sourceFiles t with
  | error e =>
      rw [build_eq_error hfiles] at h
      exact nomatch congrArg Prod.snd h
  | ok files =>
      rw [build_eq hfiles] at h
      obtain ⟨hleft, hright⟩ := Prod.mk.inj h
      obtain ⟨htree, hsession⟩ := Prod.mk.inj hleft
      obtain ⟨_, between, hwritten, hcopying⟩ := OnDisk.run_bind_ok (Prod.ext hright htree)
      obtain ⟨_, after, hcopied, hlast⟩ := OnDisk.run_bind_ok hcopying
      cases hlast
      rw [hsession] at hwritten hcopied
      exact ⟨files, _, between, hfiles, Prod.ext hsession rfl, hwritten, hcopied, rfl⟩

/-- What a build has for a source file is the text of a module or a copy. -/
theorem buildText?_eq (h : s.Apart src out) {t : FileTree} (hsound : t.Sound) {files : List Path}
    (hfiles : s.sourceFiles t = .ok files) (ns : List String) :
    s.buildText? src t ns =
      (if hasPath (files.filter (!s.isModule ·)) (src ++ ns) then t.textAt? (src ++ ns)
        else none).or (textFor? (s.buildResults t) (src ++ ns)) := by
  have hothers := hasPath_others h hsound hfiles ns
  rw [buildText?]
  cases hmodule : s.isModule (s.srcDir.below ns) with
  | true =>
      have hpath : ¬ hasPath (files.filter (!s.isModule ·)) (src ++ ns) = true := fun hpath => by
        rw [(hothers.1 hpath).2] at hmodule
        exact nomatch hmodule
      rw [if_pos rfl, if_neg hpath, Option.none_or]
  | false =>
      have hperm := s.processAll_paths_perm t (fun _ => true) (files.filter s.isModule)
      rw [if_neg Bool.false_ne_true, buildResults_eq hfiles,
        textFor?_of_not_module h hsound hfiles hperm hmodule, Option.or_none]
      by_cases hpath : hasPath (files.filter (!s.isModule ·)) (src ++ ns) = true
      · rw [if_pos hpath, if_neg (hothers.1 hpath).1.2]
      · rw [if_neg hpath]
        split
        · rfl
        · next hmodules =>
            refine Option.eq_none_iff_forall_ne_some.2 fun text htext => hpath (hothers.2 ?_)
            refine ⟨⟨?_, hmodules⟩, hmodule⟩
            rw [htext]
            rfl

/-- A build that succeeds has put its texts into the output tree. -/
theorem build_placed (h : s.Apart src out) {t t' : FileTree} (hsound : t.Sound) {s' : Session}
    {report : BuildReport} (hbuild : s.build true t = ((t', s'), .ok report)) :
    Placed out (s.buildText? src t) t t' := by
  obtain ⟨files, rs, between, hbuilt⟩ := exists_built hbuild
  obtain ⟨hfiles, hprocessed, hwritten, hcopied, -⟩ := hbuilt
  have hresults := buildResults_eq hfiles
  have hperm := s.processAll_paths_perm t (fun _ => true) (files.filter s.isModule)
  have hlater := s.processAll_later t (fun _ => true) (files.filter s.isModule)
  rw [hprocessed] at hresults hperm hlater
  have hapart := h.congr hlater.root hlater.configuration
  have hbelow := belowSource_sourceFiles h hsound hfiles
  have hdistinct := distinct_sourceFiles h hsound hfiles
  have hplaced := writeProcessed_placed hapart
    (fun p hp => hbelow p (List.mem_filter.1 (hperm.mem_iff.1 hp)).1)
    ((hperm.pairwise_iff fun hne => Ne.symm hne).2 (hdistinct.filter _)) hwritten
  have hplaced' := copies_placed hapart (fun p hp => hbelow p (List.mem_filter.1 hp).1) hcopied
  refine (hplaced.trans hplaced').congr fun ns => ?_
  rw [hplaced.outside _ (h.not_below ns), ← hresults, buildText?_eq h hsound hfiles]

end Session

end SiteMacros
