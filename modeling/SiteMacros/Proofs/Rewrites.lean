import SiteMacros.Proofs.Plans

/-!
# What a batch writes

If nothing is in the way, a batch puts the texts of the modules that it has processed
into the output tree and copies of the other files (`rewriteAll_placed`,
`copyAll_placed`). That something was in the way is seen from the report, which has
every failure of a change in the output tree (`Unhindered`).
-/

namespace SiteMacros

/-- Is it the failure of a change in the output tree? -/
def Failure.isOfOutput : Failure → Bool
  | .uncreatable .. | .unwritable .. | .uncopyable .. => true
  | _ => false

namespace OnDisk

variable {α β : Type}

theorem run_bind_error {m : OnDisk α} {f : α → OnDisk β} {t t'' : FileTree} {e : Failure}
    (h : (m >>= f).run t = (.error e, t'')) :
    (∃ t', m.run t = (.error e, t')) ∨
      ∃ a t', m.run t = (.ok a, t') ∧ (f a).run t' = (.error e, t'') := by
  rw [run_bind] at h
  cases hm : m.run t with
  | mk result t' =>
      rw [hm] at h
      cases result with
      | error e' =>
          cases h
          exact .inl ⟨_, rfl⟩
      | ok a => exact .inr ⟨a, t', rfl, h⟩

theorem change_error {failure : FileFault → Failure} {f : FileTree → FileTree.Changed}
    {t t' : FileTree} {e : Failure} (h : (change failure f).run t = (.error e, t')) :
    ∃ fault, e = failure fault := by
  rw [run_change] at h
  split at h
  · exact nomatch congrArg Prod.fst h
  · next fault _ =>
      cases h
      exact ⟨fault, rfl⟩

theorem look_error {failure : FileFault → Failure} {f : FileTree → Except FileFault α}
    {t t' : FileTree} {e : Failure} (h : (look failure f).run t = (.error e, t')) :
    ∃ fault, e = failure fault := by
  rw [run_look] at h
  split at h
  · exact nomatch congrArg Prod.fst h
  · next fault _ =>
      cases h
      exact ⟨fault, rfl⟩

theorem makeAround_error {file : Path} {t t' : FileTree} {e : Failure}
    (h : (makeAround file).run t = (.error e, t')) : e.isOfOutput = true := by
  rw [makeAround] at h
  split at h
  · obtain ⟨fault, rfl⟩ := change_error h
    rfl
  · cases congrArg Prod.fst h

theorem writeFile_error {file : Path} {text : String} {t t' : FileTree} {e : Failure}
    (h : (writeFile file text).run t = (.error e, t')) : e.isOfOutput = true := by
  rcases run_bind_error h with ⟨_, h⟩ | ⟨_, _, -, h⟩
  · exact makeAround_error h
  · obtain ⟨fault, rfl⟩ := change_error h
    rfl

theorem copyFile_error {file target : Path} {t t' : FileTree} {e : Failure}
    (h : (copyFile file target).run t = (.error e, t')) : e.isOfOutput = true := by
  rcases run_bind_error h with ⟨_, h⟩ | ⟨_, _, -, h⟩
  · exact makeAround_error h
  rcases run_bind_error h with ⟨_, h⟩ | ⟨_, _, -, h⟩
  · obtain ⟨fault, rfl⟩ := look_error h
    rfl
  rcases run_bind_error h with ⟨_, h⟩ | ⟨_, _, -, h⟩
  · obtain ⟨fault, rfl⟩ := change_error h
    rfl
  rcases run_bind_error h with ⟨_, h⟩ | ⟨_, _, -, h⟩
  · obtain ⟨fault, rfl⟩ := look_error h
    rfl
  · obtain ⟨fault, rfl⟩ := change_error h
    rfl

end OnDisk

namespace Session

variable {s : Session} {src out : List String}

theorem writeOutput_error {p : Path} {text : String} {t t' : FileTree} {e : Failure}
    (h : (s.writeOutput p text).run t = (.error e, t')) : e.isOfOutput = true := by
  unfold writeOutput at h
  split at h
  · exact OnDisk.writeFile_error h
  · exact nomatch congrArg Prod.fst h

theorem copyOutput_error {p : Path} {t t' : FileTree} {e : Failure}
    (h : (s.copyOutput p).run t = (.error e, t')) : e.isOfOutput = true := by
  unfold copyOutput at h
  split at h
  · exact OnDisk.copyFile_error h
  · exact nomatch congrArg Prod.fst h

/-! ## What a batch writes -/

/-- The report after a text has been written, or not. -/
def reportWritten (report : BatchReport) (p : Path) : Except Failure Bool → BatchReport
  | .ok true => { report with rebuilt := report.rebuilt + 1 }
  | .ok false => report
  | .error e => { report with failures := report.failures ++ [(p, e)] }

theorem rewriteAll_cons (s : Session) (p : Path) (result : Except Failure Outcome)
    (rs : List Processed) (report : BatchReport) (t : FileTree) :
    s.rewriteAll ((p, result) :: rs) report t =
      match result.toOption.bind (·.output?) with
      | some text =>
          let (written, t') := (s.writeOutput p text).run t
          s.rewriteAll rs (reportWritten report p (written.map fun _ => true)) t'
      | none =>
          s.rewriteAll rs (reportWritten report p (result.map fun _ => false)) t := by
  conv => lhs; unfold rewriteAll
  cases result with
  | error e => rfl
  | ok outcome =>
      have hbind : (Except.ok outcome : Except Failure Outcome).toOption.bind (·.output?) =
          outcome.output? := rfl
      rw [hbind]
      cases houtput : outcome.output? with
      | none => simp only [houtput]; rfl
      | some text =>
          simp only [houtput]
          rw [OnDisk.run_bind]
          cases (s.writeOutput p text).run t with
          | mk written t' => cases written <;> rfl

theorem rewriteAll_congr {s' : Session} (hroot : s'.root = s.root)
    (hconfiguration : s'.configuration = s.configuration) (rs : List Processed)
    (report : BatchReport) (t : FileTree) :
    s'.rewriteAll rs report t = s.rewriteAll rs report t := by
  have hwrites := (output_congr hroot hconfiguration).1
  induction rs generalizing report t with
  | nil => rfl
  | cons r rs ih =>
      obtain ⟨p, result⟩ := r
      rw [rewriteAll_cons, rewriteAll_cons]
      split
      · rw [hwrites]
        exact ih _ _
      · exact ih _ _

theorem reportWritten_failures {report : BatchReport} {p : Path} {written : Except Failure Bool}
    {f : Path × Failure} (hf : f ∈ report.failures) :
    f ∈ (reportWritten report p written).failures := by
  cases written with
  | error e => exact List.mem_append_left _ hf
  | ok b => cases b <;> exact hf

/-- No failure is taken from a report. -/
theorem rewriteAll_failures {rs : List Processed} {report : BatchReport} {t : FileTree}
    {f : Path × Failure} (hf : f ∈ report.failures) :
    f ∈ (s.rewriteAll rs report t).2.failures := by
  induction rs generalizing report t with
  | nil => exact hf
  | cons r rs ih =>
      obtain ⟨p, result⟩ := r
      rw [rewriteAll_cons]
      split
      · exact ih (reportWritten_failures hf)
      · exact ih (reportWritten_failures hf)

/-- A module that fails is reported. -/
theorem rewriteAll_reports {rs : List Processed} {report : BatchReport} {t : FileTree} {p : Path}
    {e : Failure} (h : (p, .error e) ∈ rs) : (p, e) ∈ (s.rewriteAll rs report t).2.failures := by
  induction rs generalizing report t with
  | nil => exact absurd h List.not_mem_nil
  | cons r rs ih =>
      obtain ⟨q, result⟩ := r
      rw [rewriteAll_cons]
      rcases List.mem_cons.1 h with heq | h
      · cases heq
        exact rewriteAll_failures (List.mem_append_right _ List.mem_cons_self)
      · split
        · exact ih h
        · exact ih h

/-- The report has no failure of a change in the output tree. -/
def Unhindered (report : BatchReport) : Prop :=
  ∀ f ∈ report.failures, f.2.isOfOutput = false

/-- If nothing is in the way, the texts of the processed modules are in their
places. -/
theorem rewriteAll_placed (h : s.Apart src out) {rs : List Processed}
    (hbelow : BelowSource src (rs.map (·.1))) (hdistinct : Distinct (rs.map (·.1)))
    {report : BatchReport} {t : FileTree} (hok : Unhindered (s.rewriteAll rs report t).2) :
    Placed out (fun ns => textFor? rs (src ++ ns)) t (s.rewriteAll rs report t).1 := by
  induction rs generalizing report t with
  | nil => exact .refl out t
  | cons r rs ih =>
      obtain ⟨p, result⟩ := r
      rw [BelowSource, List.map_cons, List.forall_mem_cons] at hbelow
      obtain ⟨⟨ks, hks, hp, -⟩, hbelow⟩ := hbelow
      have hsplit := textFor?_split hp hdistinct
      have hdistinct' : Distinct (rs.map (·.1)) := (List.pairwise_cons.1 hdistinct).2
      rw [rewriteAll_cons] at hok ⊢
      cases houtput : result.toOption.bind (·.output?) with
      | none =>
          rw [houtput] at hok
          refine (ih hbelow hdistinct' hok).congr fun ns => ?_
          rw [hsplit, houtput, ite_self, Option.or_none]
      | some text =>
          rw [houtput] at hok
          dsimp only at hok ⊢
          cases hrun : (s.writeOutput p text).run t with
          | mk written t₁ =>
              rw [hrun] at hok
              cases written with
              | error e =>
                  have hnot := hok (p, e) (rewriteAll_failures
                    (List.mem_append_right _ List.mem_cons_self))
                  rw [writeOutput_error hrun] at hnot
                  cases hnot
              | ok _ =>
                  have hwritten := writeOutput_placed h hp hks hrun
                  refine (hwritten.trans (ih hbelow hdistinct' hok)).congr fun ns => ?_
                  rw [hsplit, houtput]

theorem copyAll_cons (s : Session) (p : Path) (ps : List Path) (report : BatchReport)
    (t : FileTree) :
    s.copyAll (p :: ps) report t =
      match (s.copyOutput p).run t with
      | (.ok (), t') => s.copyAll ps { report with copied := report.copied + 1 } t'
      | (.error e, t') =>
          s.copyAll ps { report with failures := report.failures ++ [(p, e)] } t' := by
  rw [copyAll]
  cases (s.copyOutput p).run t with
  | mk copied t' => cases copied <;> rfl

theorem copyAll_congr {s' : Session} (hroot : s'.root = s.root)
    (hconfiguration : s'.configuration = s.configuration) (ps : List Path) (report : BatchReport)
    (t : FileTree) : s'.copyAll ps report t = s.copyAll ps report t := by
  have hcopies := (output_congr hroot hconfiguration).2
  induction ps generalizing report t with
  | nil => rfl
  | cons p ps ih =>
      rw [copyAll_cons, copyAll_cons, hcopies]
      split <;> exact ih _ _

theorem copyAll_failures {ps : List Path} {report : BatchReport} {t : FileTree}
    {f : Path × Failure} (hf : f ∈ report.failures) :
    f ∈ (s.copyAll ps report t).2.failures := by
  induction ps generalizing report t with
  | nil => exact hf
  | cons p ps ih =>
      rw [copyAll_cons]
      split
      · exact ih hf
      · exact ih (List.mem_append_left _ hf)

/-- If nothing is in the way, copies of the files are in their places. -/
theorem copyAll_placed (h : s.Apart src out) {ps : List Path} (hbelow : BelowSource src ps)
    {report : BatchReport} {t : FileTree} (hok : Unhindered (s.copyAll ps report t).2) :
    Placed out (fun ns => if hasPath ps (src ++ ns) then t.textAt? (src ++ ns) else none) t
      (s.copyAll ps report t).1 := by
  induction ps generalizing report t with
  | nil => exact .refl out t
  | cons p ps ih =>
      rw [BelowSource, List.forall_mem_cons] at hbelow
      obtain ⟨⟨ks, hks, hp, hend⟩, hbelow⟩ := hbelow
      rw [copyAll_cons] at hok ⊢
      cases hrun : (s.copyOutput p).run t with
      | mk copied t₁ =>
          rw [hrun] at hok
          cases copied with
          | error e =>
              have hnot := hok (p, e) (copyAll_failures
                (List.mem_append_right _ List.mem_cons_self))
              rw [copyOutput_error hrun] at hnot
              cases hnot
          | ok _ => exact .copied_cons h hp (copyOutput_placed h hp hend hks hrun) (ih hbelow hok)

end Session

end SiteMacros
