import SiteMacros.Proofs.Batches
import SiteMacros.Proofs.Destinations

/-!
# Places beside a change

A change at one address leaves a node alone as a whole if neither of the two addresses
leads through the other. Making a directory makes those around it too, but nothing that
is there is touched on the way, and what is new lies on the way to the directory. And it
leaves a sound tree sound, since what it adds has the name of a path's component. So a
batch leaves the root of the sources as it is, with all that is below it, also where a
change in the output tree fails half-way (`applyBatch_spares`).
-/

namespace SiteMacros

namespace FileTree

variable {t t' : FileTree} {p : Path} {ms ns : List String}

/-! ## Sound trees -/

theorem mem_putEntry {n : String} {c : FileTree} {es : List (String × FileTree)}
    {e : String × FileTree} (h : e ∈ putEntry n c es) : e = (n, c) ∨ e ∈ es := by
  induction es with
  | nil => exact .inl (List.mem_singleton.1 h)
  | cons f es ih =>
      obtain ⟨m, d⟩ := f
      rw [putEntry] at h
      split at h
      · next hm =>
          subst hm
          exact (List.mem_cons.1 h).imp id (List.mem_cons_of_mem _)
      · rcases List.mem_cons.1 h with rfl | h
        · exact .inr List.mem_cons_self
        · exact (ih h).imp id (List.mem_cons_of_mem _)

theorem nodup_putEntry {n : String} (c : FileTree) {es : List (String × FileTree)}
    (h : (es.map (·.1)).Nodup) : ((putEntry n c es).map (·.1)).Nodup := by
  induction es with
  | nil => exact List.pairwise_singleton _ n
  | cons f es ih =>
      obtain ⟨m, d⟩ := f
      obtain ⟨hnot, hes⟩ := List.nodup_cons.1 h
      rw [putEntry]
      split
      · next hm =>
          subst hm
          exact h
      · next hm =>
          refine List.nodup_cons.2 ⟨fun hmem => ?_, ih hes⟩
          obtain ⟨e, he, heq⟩ := List.mem_map.1 hmem
          rcases mem_putEntry he with rfl | he
          · exact hm heq.symm
          · exact hnot (List.mem_map.2 ⟨e, he, heq⟩)

theorem Sound.entries (h : t.Sound) :
    (∀ e ∈ t.entries, Path.IsName e.1) ∧ (t.entries.map (·.1)).Nodup ∧
      ∀ e ∈ t.entries, e.2.Sound := by
  cases t with
  | file text => exact ⟨fun _ he => absurd he List.not_mem_nil, List.nodup_nil,
      fun _ he => absurd he List.not_mem_nil⟩
  | dir es => exact ⟨h.names [] es rfl, h.distinct [] es rfl, fun e he => h.child he⟩

theorem Sound.putEntry (h : t.Sound) {n : String} (hn : Path.IsName n) {c : FileTree}
    (hc : c.Sound) : (dir (putEntry n c t.entries)).Sound := by
  obtain ⟨hnames, hdistinct, hes⟩ := h.entries
  refine sound_dir _ rfl (List.forall_mem_map.2 fun e he => ?_) (nodup_putEntry c hdistinct)
    fun e he => ?_
  · rcases mem_putEntry he with rfl | he
    · exact hn
    · exact hnames e he
  · rcases mem_putEntry he with rfl | he
    · exact hc
    · exact hes e he

theorem sound_empty : empty.Sound :=
  sound_dir [] rfl (fun _ h => absurd h List.not_mem_nil) List.nodup_nil
    fun _ h => absurd h List.not_mem_nil

theorem Sound.set (h : t.Sound) {new : FileTree} (hnew : new.Sound)
    (hms : ∀ n ∈ ms, Path.IsName n) : (t.set ms new).Sound := by
  induction ms generalizing t with
  | nil => exact hnew
  | cons n ns ih =>
      obtain ⟨hn, hns⟩ := List.forall_mem_cons.1 hms
      refine h.putEntry hn (ih ?_ hns)
      cases hchild : t.child? n with
      | none => exact sound_empty
      | some c => exact h.entries.2.2 (n, c) (mem_of_lookup hchild)

theorem Sound.erase (h : t.Sound) : (t.erase ms).Sound := by
  induction ms generalizing t with
  | nil => exact h
  | cons n ns ih =>
      obtain ⟨hnames, hdistinct, hes⟩ := h.entries
      cases ns with
      | nil =>
          refine sound_dir _ rfl (List.forall_mem_map.2 fun e he => ?_)
            (hdistinct.sublist (List.filter_sublist.map _)) fun e he => ?_
          · exact hnames e (List.mem_filter.1 he).1
          · exact hes e (List.mem_filter.1 he).1
      | cons m ns =>
          rw [FileTree.erase.eq_def]
          dsimp only
          split
          · next c hc =>
              have hmem := mem_of_lookup hc
              exact h.putEntry (hnames _ hmem) (ih (hes _ hmem))
          · exact h

/-! ## Changes at other addresses -/

theorem get?_erase_of_apart (h : ¬ ms <+: ns) (h' : ¬ ns <+: ms) :
    (t.erase ms).get? ns = t.get? ns := by
  induction ms generalizing t ns with
  | nil => exact absurd List.nil_prefix h
  | cons m ms ih =>
      cases ns with
      | nil => exact absurd List.nil_prefix h'
      | cons n ns =>
          rw [List.cons_prefix_cons] at h h'
          rw [get?, get?]
          by_cases hms : ms = []
          · subst hms
            rw [child?_erase_singleton, if_neg fun hn => h ⟨hn.symm, List.nil_prefix⟩]
          · rw [child?_erase_cons t m hms]
            by_cases hn : n = m
            · subst hn
              rw [if_pos rfl]
              cases t.child? n with
              | none => rfl
              | some c => exact ih (fun hp => h ⟨rfl, hp⟩) fun hp => h' ⟨rfl, hp⟩
            · rw [if_neg hn]

/-- The node at the address is left alone, and the tree is as sound as it was. -/
structure Spares (ns : List String) (t t' : FileTree) : Prop where
  node : t'.get? ns = t.get? ns
  sound : t.Sound → t'.Sound

namespace Spares

instance : Std.Refl (Spares ns) :=
  ⟨fun _ => ⟨rfl, id⟩⟩

theorem refl (ns : List String) (t : FileTree) : Spares ns t t :=
  ⟨rfl, id⟩

theorem trans {t'' : FileTree} (h : Spares ns t t') (h' : Spares ns t' t'') : Spares ns t t'' :=
  ⟨h'.node.trans h.node, fun hsound => h'.sound (h.sound hsound)⟩

instance : Trans (Spares ns) (Spares ns) (Spares ns) :=
  ⟨trans⟩

end Spares

theorem spares_makeDir (hp : p.Leads ms) (h : t.makeDir p = .ok t') (hns : ¬ ns <+: ms) :
    Spares ns t t' := by
  rw [makeDir] at h
  split at h
  · cases h
  · next before name hlast =>
      obtain ⟨here, hhere, h⟩ := Expansion.exists_of_bind_eq_ok h
      obtain ⟨hwalk, -⟩ := directoryAt_eq_ok hhere
      split at h
      · cases h
      · next hname =>
          have hdest := lastStep_destination hp.isAbsolute hlast (Bool.not_eq_true _ ▸ hname) hwalk
          rw [hp.destination_eq] at hdest
          split at h
          · cases h
          · next hnone =>
              cases h
              rw [hdest] at hnone ⊢
              refine ⟨?_, fun hsound => hsound.set sound_empty hp.isName⟩
              by_cases hunder : ms <+: ns
              · -- nothing was there, and the new directory is empty
                obtain ⟨rest, rfl⟩ := hunder
                rw [get?_append, get?_append, get?_set_self, hnone]
                cases rest with
                | nil => exact absurd (by simp) hns
                | cons n rest => rfl
              · exact get?_set_of_apart hunder hns

theorem spares_makeDirs (hp : p.Leads ms) (hns : ¬ ns <+: ms) (t : FileTree) :
    Spares ns t (t.makeDirs p).1 := by
  refine makeDirs_keeps (.refl ns) .trans (fun a ha t t' hmade => ?_) t
  obtain ⟨ks, hks, hleads⟩ := hp.ancestors a ha
  exact spares_makeDir hleads hmade fun hnk => hns (hnk.trans hks)

theorem spares_writeText {text : String} (hp : p.Leads ms) (h : t.writeText p text = .ok t')
    (hms : ¬ ms <+: ns) (hns : ¬ ns <+: ms) : Spares ns t t' := by
  rw [writeText] at h
  split at h
  · cases h
  · next before name hlast =>
      obtain ⟨here, hhere, h⟩ := Expansion.exists_of_bind_eq_ok h
      obtain ⟨hwalk, -⟩ := directoryAt_eq_ok hhere
      split at h
      · cases h
      · next hname =>
          rw [Bool.or_eq_true, not_or, Bool.not_eq_true] at hname
          have hdest := lastStep_destination hp.isAbsolute hlast hname.1 hwalk
          rw [hp.destination_eq] at hdest
          split at h
          · cases h
          · cases h
            rw [hdest]
            exact ⟨get?_set_of_apart hms hns,
              fun hsound => hsound.set (sound_file text) hp.isName⟩

theorem spares_removeFile (hp : p.Leads ms) (h : t.removeFile p = .ok t') (hms : ¬ ms <+: ns)
    (hns : ¬ ns <+: ms) : Spares ns t t' := by
  obtain ⟨here, hhere, h⟩ := Expansion.exists_of_bind_eq_ok h
  obtain ⟨rfl, -⟩ := address_eq_ok hp hhere
  split at h
  · cases h
    exact ⟨get?_erase_of_apart hms hns, Sound.erase⟩
  · cases h
  · cases h

theorem spares_removeTree (hp : p.Leads ms) (hms : ¬ ms <+: ns) (hns : ¬ ns <+: ms)
    (t : FileTree) : Spares ns t (t.removeTree p).1 := by
  have hcases := removeTree_cases hp.isAbsolute t
  rw [hp.destination_eq] at hcases
  have hemptied : Spares ns t (t.set ms empty) :=
    ⟨get?_set_of_apart hms hns, fun hsound => hsound.set sound_empty hp.isName⟩
  rcases hcases with ⟨heq, -⟩ | ⟨es, -, heq | heq⟩
  · rw [heq]
    exact .refl ns t
  · rwa [heq]
  · rw [heq]
    exact hemptied.trans ⟨get?_erase_of_apart hms hns, Sound.erase⟩

end FileTree

namespace OnDisk

variable {p : Path} {ms ns : List String}

theorem keeps_makeAround (hp : p.Leads ms) (hns : ¬ ns <+: ms) :
    Keeps (FileTree.Spares ns) (makeAround p) := by
  refine .makeAround fun dir hdir t => ?_
  rcases List.eq_nil_or_concat ms with rfl | ⟨ks, k, rfl⟩
  · rw [hp.parent?_nil] at hdir
    cases hdir
  · rw [List.concat_eq_append] at hp hns
    obtain ⟨q, hq, hleads⟩ := hp.parent?_concat
    rw [hq] at hdir
    cases hdir
    exact FileTree.spares_makeDirs hleads (fun h => hns (h.trans (List.prefix_append ks [k]))) t

theorem keeps_writeFile (hp : p.Leads ms) (hms : ¬ ms <+: ns) (hns : ¬ ns <+: ms)
    (text : String) : Keeps (FileTree.Spares ns) (writeFile p text) :=
  .writeFile (keeps_makeAround hp hns) fun _ _ _ h => FileTree.spares_writeText hp h hms hns

theorem keeps_copyFile (hp : p.Leads ms) (hms : ¬ ms <+: ns) (hns : ¬ ns <+: ms)
    (file : Path) : Keeps (FileTree.Spares ns) (copyFile file p) :=
  .copyFile file (keeps_makeAround hp hns) fun _ _ _ h => FileTree.spares_writeText hp h hms hns

theorem keeps_discard (hp : p.Leads ms) (hms : ¬ ms <+: ns) (hns : ¬ ns <+: ms) :
    Keeps (FileTree.Spares ns) (discard p) := by
  intro t
  show FileTree.Spares ns t
    (if t.isDir p then (t.removeTree p).1 else (attempt (·.removeFile p) t).1)
  split
  · exact FileTree.spares_removeTree hp hms hns t
  · rw [attempt]
    split
    · next t' h => exact FileTree.spares_removeFile hp h hms hns
    · exact .refl ns t

end OnDisk

namespace Session

variable {s : Session} {src out : List String}

/-- The place of a source file lies beside the sources. -/
theorem outputPath?_beside (h : s.Apart src out) {p q : Path} {ms : List String}
    (hp : p.Leads ms) (hq : s.outputPath? p = some q) :
    ∃ ks, q.Leads ks ∧ ¬ ks <+: src ∧ ¬ src <+: ks := by
  by_cases hunder : src <+: ms
  · obtain ⟨ks, rfl⟩ := hunder
    obtain ⟨q', hq', hleads, -⟩ := outputPath?_leads h.src_leads h.out_leads hp
    rw [hq] at hq'
    cases hq'
    refine ⟨out ++ ks, hleads, fun hks => ?_, fun hsrc => ?_⟩
    · exact h.out_not_above ((List.prefix_append out ks).trans hks)
    · rcases List.prefix_or_prefix_of_prefix hsrc (List.prefix_append out ks) with hle | hle
      · exact h.src_not_above hle
      · exact h.out_not_above hle
  · have houtside : p.startsWith s.srcDir = false :=
      Bool.eq_false_iff.2 fun hp' => hunder ((hp.startsWith_iff h.src_leads).1 hp')
    rw [outputPath?_eq_none houtside] at hq
    cases hq

section

variable (h : s.Apart src out) {p : Path} {ms : List String} (hp : p.Leads ms)
include h hp

theorem writeOutput_keeps (text : String) :
    OnDisk.Keeps (FileTree.Spares src) (s.writeOutput p text) := by
  unfold writeOutput
  split
  · next q hq =>
      obtain ⟨ks, hleads, hbelow, habove⟩ := outputPath?_beside h hp hq
      exact OnDisk.keeps_writeFile hleads hbelow habove text
  · exact .pure ()

theorem copyOutput_keeps : OnDisk.Keeps (FileTree.Spares src) (s.copyOutput p) := by
  unfold copyOutput
  split
  · next q hq =>
      obtain ⟨ks, hleads, hbelow, habove⟩ := outputPath?_beside h hp hq
      exact OnDisk.keeps_copyFile hleads hbelow habove p
  · exact .pure ()

theorem removeOutput_keeps : OnDisk.Keeps (FileTree.Spares src) (s.removeOutput p) := by
  unfold removeOutput
  split
  · next q hq =>
      obtain ⟨ks, hleads, hbelow, habove⟩ := outputPath?_beside h hp hq
      exact OnDisk.keeps_discard hleads hbelow habove
  · exact .pure ()

end

/-! ## Batches -/

theorem heed_spares (h : s.Apart src out) {c : Path × PathChange} (htold : Told src c)
    (t : FileTree) : FileTree.Spares src t (s.heed t c).1 := by
  obtain ⟨ms, hp, -⟩ := htold
  rw [heed]
  split
  · rw [forget_tree]
    exact removeOutput_keeps h hp t
  · exact .refl src t

theorem noteChanges_spares (h : s.Apart src out) {changes : List (Path × PathChange)}
    (htold : ∀ c ∈ changes, Told src c) (plan : Plan) (t : FileTree) :
    FileTree.Spares src t (noteChanges changes plan s t).1 := by
  induction changes generalizing plan s t with
  | nil => exact .refl src t
  | cons c changes ih =>
      obtain ⟨hc, hrest⟩ := List.forall_mem_cons.1 htold
      obtain ⟨hroot, hconfiguration⟩ := s.heed_same t c
      rw [noteChanges_cons]
      exact (heed_spares h hc t).trans (ih (h.congr hroot hconfiguration) hrest _ _)

section

variable {R : FileTree → FileTree → Prop} [Std.Refl R] [Trans R R R]

/-- What the writing of each text keeps the writing of them all keeps, whatever fails. -/
theorem rewriteAll_keeps {rs : List Processed}
    (h : ∀ r ∈ rs, ∀ text, r.2.toOption.bind (·.output?) = some text →
      OnDisk.Keeps R (s.writeOutput r.1 text)) (report : BatchReport) (t : FileTree) :
    R t (s.rewriteAll rs report t).1 := by
  induction rs generalizing report t with
  | nil => exact Std.Refl.refl t
  | cons r rs ih =>
      obtain ⟨hr, hrs⟩ := List.forall_mem_cons.1 h
      obtain ⟨p, result⟩ := r
      rw [rewriteAll_cons]
      split
      · next text houtput => exact Trans.trans (hr text houtput t) (ih hrs _ _)
      · exact ih hrs _ _

theorem copyAll_keeps {ps : List Path} (h : ∀ p ∈ ps, OnDisk.Keeps R (s.copyOutput p))
    (report : BatchReport) (t : FileTree) : R t (s.copyAll ps report t).1 := by
  induction ps generalizing report t with
  | nil => exact Std.Refl.refl t
  | cons p ps ih =>
      obtain ⟨hp, hps⟩ := List.forall_mem_cons.1 h
      have hfirst := hp t
      rw [copyAll_cons]
      split
      · next t' hrun =>
          rw [hrun] at hfirst
          exact Trans.trans hfirst (ih hps _ _)
      · next e t' hrun =>
          rw [hrun] at hfirst
          exact Trans.trans hfirst (ih hps _ _)

end

section

variable {changes : List (Path × PathChange)} {t : FileTree}

/-- What every write and every copy of a batch keeps the batch keeps, once the changes have
been noted. -/
theorem Prepared.applyBatch_keeps (h : Prepared s src out changes t)
    {R : FileTree → FileTree → Prop} [Std.Refl R] [Trans R R R]
    (hwrite : ∀ r ∈ s.batchResults changes t, ∀ text, r.2.toOption.bind (·.output?) = some text →
      OnDisk.Keeps R (s.writeOutput r.1 text))
    (hcopy : ∀ p ∈ (noteChanges changes {} s t).2.2.2.assets.toList,
      OnDisk.Keeps R (s.copyOutput p)) :
    R (noteChanges changes {} s t).1 (s.applyBatch changes t).1 := by
  have hrewritten : R (noteChanges changes {} s t).1 (s.rewrittenIn changes t).1 :=
    rewriteAll_keeps hwrite _ _
  have hcopied : ∀ report t', R t'
      (s.copyAll ((noteChanges changes {} s t).2.2.2.files false).toList report t').1 :=
    copyAll_keeps hcopy
  rw [(Prod.mk.inj h.applyBatch_copies).1]
  exact Trans.trans hrewritten (hcopied _ _)

/-- A batch leaves the sources alone, also while the changes are noted. -/
theorem Prepared.applyBatch_spares (h : Prepared s src out changes t) :
    FileTree.Spares src t (noteChanges changes {} s t).1 ∧
      FileTree.Spares src t (s.applyBatch changes t).1 := by
  have hfirst := noteChanges_spares h.apart h.told {} t
  refine ⟨hfirst, hfirst.trans (h.applyBatch_keeps (fun r hr text _ => ?_) fun p hp => ?_)⟩
  · obtain ⟨⟨ks, -, hleads, -⟩, -⟩ := h.mem_batchResults hr
    exact writeOutput_keeps h.apart hleads text
  · obtain ⟨⟨ks, -, hleads, -⟩, -⟩ := h.mem_files false hp
    exact copyOutput_keeps h.apart hleads

end

end Session

end SiteMacros
