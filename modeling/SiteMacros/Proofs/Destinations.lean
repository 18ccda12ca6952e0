import SiteMacros.CommandLine.Run
import SiteMacros.Proofs.Mirror

/-!
# Where paths lead, and what is changed there

An absolute path leads somewhere also if it is written with `..`: each step is taken
from the place that the steps before it have come to (`Path.destination`). A file
system that finds the path finds it there (`address_eq_destination`).

Writing a file, copying one and removing a tree change texts at and below the
destination of their path and nowhere else, whether they succeed or stop half-way.
For steps one after another the same holds of a place that all of their paths lead
into (`OnDisk.Within`), and a build and a removal of the output tree are such steps
for the destination of the output tree (`build_within`, `runClean_within`).
-/

namespace SiteMacros

/-- One step from an address. -/
def Component.follow (here : List String) : Component → List String
  | .root => []
  | .here => here
  | .parent => here.dropLast
  | .name n => here ++ [n]

namespace Path

/-- Where the path leads from the root. -/
def destination (p : Path) : List String :=
  p.components.foldl Component.follow []

theorem destination_eq {p : Path} (h : p.isAbsolute = true) :
    p.destination = (p.pieces.filterMap (·.2)).foldl Component.follow [] := by
  rw [destination, components, h, if_pos rfl, List.foldl_cons]
  rfl

theorem foldl_follow_names (here ns : List String) :
    (ns.map Component.name).foldl Component.follow here = here ++ ns := by
  induction ns generalizing here with
  | nil => exact (List.append_nil here).symm
  | cons n ns ih =>
      rw [List.map_cons, List.foldl_cons, ih, Component.follow, List.append_assoc]
      rfl

theorem Leads.destination_eq {p : Path} {ns : List String} (h : p.Leads ns) :
    p.destination = ns := by
  rw [Path.destination_eq h.isAbsolute, h.steps, foldl_follow_names, List.nil_append]

theorem isAbsolute_join {p : Path} (hp : p.isAbsolute = true) (q : String) :
    (p.join q).isAbsolute = true := by
  cases hq : (Path.mk q).isAbsolute with
  | true => rwa [join, if_pos hq]
  | false => exact (pieces_join hp hq).1

/-- A path that names are joined to leads so many names further. -/
theorem pieces_join_names {p : Path} (hp : p.isAbsolute = true) {q : String} {ns : List String}
    (hq : (Path.mk q).isAbsolute = false)
    (hnames : ((Text.pieces '/' q.toList).map pieces.inner).filterMap (·.2) = ns.map .name) :
    (p.join q).pieces.filterMap (·.2) = p.pieces.filterMap (·.2) ++ ns.map .name := by
  obtain ⟨-, before, hpieces, hbefore⟩ := pieces_join hp hq
  rw [hpieces, List.filterMap_append, hbefore, hnames]

theorem destination_join_names {p : Path} (hp : p.isAbsolute = true) {q : String}
    {ns : List String} (hq : (Path.mk q).isAbsolute = false)
    (hnames : ((Text.pieces '/' q.toList).map pieces.inner).filterMap (·.2) = ns.map .name) :
    (p.join q).destination = p.destination ++ ns := by
  rw [destination_eq (isAbsolute_join hp q), destination_eq hp, pieces_join_names hp hq hnames,
    List.foldl_append, foldl_follow_names]

theorem pieces_below {p : Path} (hp : p.isAbsolute = true) {ns : List String}
    (hns : ∀ n ∈ ns, IsName n) :
    (p.below ns).isAbsolute = true ∧
      (p.below ns).pieces.filterMap (·.2) = p.pieces.filterMap (·.2) ++ ns.map .name := by
  induction ns generalizing p with
  | nil => exact ⟨hp, (List.append_nil _).symm⟩
  | cons n ns ih =>
      obtain ⟨hn, hns⟩ := List.forall_mem_cons.1 hns
      obtain ⟨habs, hpieces⟩ := ih (isAbsolute_join hp n) hns
      refine ⟨habs, hpieces.trans ?_⟩
      have hone : ((Text.pieces '/' n.toList).map pieces.inner).filterMap (·.2) =
          [n].map Component.name := by
        rw [inner_of_name hn.noSlash hn.ne_empty hn.ne_here hn.ne_parent]
        rfl
      rw [pieces_join_names hp hn.isAbsolute hone, List.append_assoc]
      rfl

end Path

/-! ## Walks -/

namespace FileTree

/-- The step that a piece of a path stands for. -/
def stepOf (piece : String) : Option Component :=
  (Path.pieces.inner piece.toList).2

theorem stepOf_of_idle {piece : String} (h : piece = "" ∨ piece = ".") : stepOf piece = none := by
  rw [stepOf, Path.inner_snd_none, Path.inner_fst, String.ofList_toList]
  exact h

theorem stepOf_of_name {piece : String} (hempty : piece ≠ "") (hdot : piece ≠ ".")
    (hup : piece ≠ "..") : stepOf piece = some (.name piece) := by
  simp [stepOf, Path.pieces.inner, hempty, hdot, hup]

/-- A walk ends where its steps lead. -/
theorem walk_eq_follow {t : FileTree} {here pieces dest : List String}
    (h : t.walk here pieces = .ok dest) :
    dest = (pieces.filterMap stepOf).foldl Component.follow here := by
  induction pieces generalizing here with
  | nil =>
      cases h
      rfl
  | cons q qs ih =>
      rw [walk] at h
      rw [List.filterMap_cons]
      split at h
      · cases h
      · cases h
      · split at h
        · next hidle =>
            rw [stepOf_of_idle (by simpa using hidle)]
            exact ih h
        · next hcounts =>
            simp only [Bool.or_eq_true, decide_eq_true_eq, not_or] at hcounts
            split at h
            · next hup =>
                subst hup
                exact ih h
            · next hup =>
                rw [stepOf_of_name hcounts.1 hcounts.2 hup]
                split at h
                · cases h
                · exact ih h

theorem steps_absolute {p : Path} (h : p.isAbsolute = true) :
    (steps p).filterMap stepOf = p.pieces.filterMap (·.2) := by
  obtain ⟨cs, hcs⟩ := p.isAbsolute_iff.1 h
  have hne : p.text.isEmpty = false := by
    rw [Bool.eq_false_iff, ne_eq, String.isEmpty_iff]
    intro hempty
    rw [hempty] at hcs
    exact nomatch hcs
  have hsteps : steps p = "" :: (Text.pieces '/' cs).map String.ofList := by
    rw [steps, hne, if_neg Bool.false_ne_true, Text.split, hcs, Text.pieces, if_pos rfl]
    rfl
  rw [hsteps, List.filterMap_cons, stepOf_of_idle (.inl rfl), Path.pieces_absolute hcs,
    List.filterMap_map, List.filterMap_map]
  refine congrArg (List.filterMap · _) (funext fun q => ?_)
  show (Path.pieces.inner (String.ofList q).toList).2 = (Path.pieces.inner q).2
  rw [String.toList_ofList]

theorem destination_eq_steps {p : Path} (h : p.isAbsolute = true) :
    p.destination = ((steps p).filterMap stepOf).foldl Component.follow [] := by
  rw [p.destination_eq h, steps_absolute h]

/-- What a path names is where the path leads. -/
theorem address_eq_destination {t : FileTree} {p : Path} {dest : List String}
    (hp : p.isAbsolute = true) (h : t.address p = .ok dest) : dest = p.destination := by
  rw [address] at h
  split at h
  · cases h
  · rw [destination_eq_steps hp]
    exact walk_eq_follow h

/-- The last name of a path is looked up where the steps before it lead. -/
theorem lastStep_destination {t : FileTree} {p : Path} (hp : p.isAbsolute = true)
    {before here : List String} {name : String} (h : lastStep p = some (before, name))
    (hname : isStep name = false) (hwalk : t.walk [] before = .ok here) :
    here ++ [name] = p.destination := by
  rw [lastStep] at h
  split at h
  · cases h
  · next last rest hrest =>
      obtain ⟨rfl, rfl⟩ := Prod.mk.inj (Option.some.inj h)
      obtain ⟨hlast, after, hafter, hfull⟩ := Text.dropEndWhile_append_reverse hrest
      rw [isStep, Bool.or_eq_false_iff, decide_eq_false_iff_not, decide_eq_false_iff_not] at hname
      have hnone : after.filterMap stepOf = [] := by
        refine List.filterMap_eq_nil_iff.2 fun q hq => ?_
        exact stepOf_of_idle (.inl (by simpa using hafter q hq))
      rw [destination_eq_steps hp, hfull, List.filterMap_append, List.filterMap_cons,
        stepOf_of_name (by simpa using hlast) hname.1 hname.2, hnone, List.foldl_append,
        ← walk_eq_follow hwalk]
      rfl

/-! ## Changes of files -/

theorem textAt?_writeText_of_ne {t t' : FileTree} {p : Path} {text : String}
    (hp : p.isAbsolute = true) (h : t.writeText p text = .ok t') {ns : List String}
    (hns : ns ≠ p.destination) : t'.textAt? ns = t.textAt? ns := by
  rw [writeText] at h
  split at h
  · cases h
  · next before name hlast =>
      obtain ⟨here, hhere, h⟩ := Expansion.exists_of_bind_eq_ok h
      obtain ⟨hwalk, es, hes⟩ := directoryAt_eq_ok hhere
      split at h
      · cases h
      · next hname =>
          rw [Bool.or_eq_true, not_or, Bool.not_eq_true] at hname
          have hdest := lastStep_destination hp hlast hname.1 hwalk
          split at h
          · cases h
          · next hnot =>
              cases h
              rw [textAt?_set_file (clear_of_get?_dir hes name) hnot, hdest, if_neg hns]

theorem textAt?_empty_at {t : FileTree} {ms : List String} {es : List (String × FileTree)}
    (h : t.get? ms = some (.dir es)) (ns : List String) :
    (t.set ms empty).textAt? ns = if ms <+: ns then none else t.textAt? ns := by
  rw [textAt?_set (clear_of_get? h)]
  split
  · exact textAt?_empty _
  · rfl

/-- A tree that is removed is emptied first, and then taken away if that can be done. -/
theorem removeTree_cases {p : Path} (hp : p.isAbsolute = true) (t : FileTree) :
    (t.removeTree p).1 = t ∧ t.isDir p = false ∨
      ∃ es, t.get? p.destination = some (.dir es) ∧
        ((t.removeTree p).1 = t.set p.destination empty ∨
          (t.removeTree p).1 = (t.set p.destination empty).erase p.destination) := by
  have hnot : (∀ es, t.find p ≠ .ok (.dir es)) → t.isDir p = false := by
    intro h
    rw [isDir]
    split
    · next es hes => exact absurd hes (h es)
    · rfl
  rw [removeTree]
  split
  · next e haddress =>
      refine .inl ⟨rfl, hnot fun es hes => ?_⟩
      obtain ⟨here, hhere, -⟩ := Expansion.exists_of_bind_eq_ok hes
      rw [haddress] at hhere
      cases hhere
  · next here haddress =>
      have hfind : t.find p = (t.get? here).elim (.error .notFound) .ok := by
        rw [find, haddress]
        dsimp only [bind, Except.bind]
        cases t.get? here <;> rfl
      have hdest := address_eq_destination hp haddress
      subst hdest
      split
      · next hnone =>
          refine .inl ⟨rfl, hnot fun es hes => ?_⟩
          rw [hfind, hnone] at hes
          cases hes
      · next text hfile =>
          refine .inl ⟨rfl, hnot fun es hes => ?_⟩
          rw [hfind, hfile] at hes
          cases hes
      · next es hes =>
          refine .inr ⟨es, hes, ?_⟩
          dsimp only
          split
          · exact .inl rfl
          · next here' haddress' =>
              rw [address_eq_destination hp haddress']
              split
              · exact .inl rfl
              · exact .inl rfl
              · exact .inr rfl
              · exact .inl rfl

/-- Removing a tree changes texts at and below its root only, and if it finds the tree
it leaves no text there, also if it cannot remove the root. -/
theorem textAt?_removeTree_destination {p : Path} (hp : p.isAbsolute = true) (t : FileTree)
    (ns : List String) :
    (¬ p.destination <+: ns → (t.removeTree p).1.textAt? ns = t.textAt? ns) ∧
      (t.isDir p = true → p.destination <+: ns → (t.removeTree p).1.textAt? ns = none) := by
  rcases removeTree_cases hp t with ⟨hsame, hdir⟩ | ⟨es, hes, hemptied | herased⟩
  · rw [hsame, hdir]
    exact ⟨fun _ => rfl, fun h => nomatch h⟩
  · rw [hemptied, textAt?_empty_at hes]
    exact ⟨fun hns => if_neg hns, fun _ hns => if_pos hns⟩
  · have hthere := get?_set_self t p.destination empty
    have htext : ((t.set p.destination empty).erase p.destination).textAt? ns =
        if p.destination <+: ns then none else t.textAt? ns := by
      rcases Decidable.em (p.destination = []) with hroot | hroot
      · rw [← textAt?_empty_at hes, hroot]
        rfl
      · rw [textAt?_erase hroot (clear_of_get? hthere), textAt?_empty_at hes]
        split <;> rfl
    rw [herased, htext]
    exact ⟨fun hns => if_neg hns, fun _ hns => if_pos hns⟩

end FileTree

namespace OnDisk

variable {α β : Type} {out : List String}

/-- What is seen of the files is the same. -/
def Same {γ : Type} (view : FileTree → γ) (t t' : FileTree) : Prop :=
  view t' = view t

instance {γ : Type} (view : FileTree → γ) : Std.Refl (Same view) :=
  ⟨fun _ => rfl⟩

instance {γ : Type} (view : FileTree → γ) : Trans (Same view) (Same view) (Same view) :=
  ⟨fun h h' => Eq.trans h' h⟩

/-- The files are so related before and after the step, whether it succeeds or not. -/
def Keeps (R : FileTree → FileTree → Prop) (m : OnDisk α) : Prop :=
  ∀ t, R t (m.run t).2

namespace Keeps

variable {R : FileTree → FileTree → Prop}

theorem pure [Std.Refl R] (a : α) : Keeps R (Pure.pure a : OnDisk α) :=
  fun t => Std.Refl.refl t

theorem bind [Trans R R R] {m : OnDisk α} {f : α → OnDisk β} (hm : Keeps R m)
    (hf : ∀ a, Keeps R (f a)) : Keeps R (m >>= f) := by
  intro t
  have hfirst := hm t
  rw [run_bind]
  split
  · next a t' hrun =>
      rw [hrun] at hfirst
      exact Trans.trans hfirst (hf a t')
  · next e t' hrun =>
      rw [hrun] at hfirst
      exact hfirst

theorem look [Std.Refl R] (failure : FileFault → Failure) (f : FileTree → Except FileFault α) :
    Keeps R (OnDisk.look failure f) := by
  intro t
  rw [run_look]
  split <;> exact Std.Refl.refl t

theorem change {failure : FileFault → Failure} {f : FileTree → FileTree.Changed}
    (hf : ∀ t, R t (f t).1) : Keeps R (OnDisk.change failure f) := by
  intro t
  have hchanged := hf t
  rw [run_change]
  split <;> next heq => rw [heq] at hchanged; exact hchanged

theorem makeAround [Std.Refl R] {file : Path}
    (hf : ∀ dir, file.parent? = some dir → ∀ t : FileTree, R t (t.makeDirs dir).1) :
    Keeps R (OnDisk.makeAround file) := by
  rw [OnDisk.makeAround]
  split
  · next dir hdir => exact change (hf dir hdir)
  · exact pure ()

theorem attempt [Std.Refl R] {failure : FileFault → Failure}
    {f : FileTree → Except FileFault FileTree}
    (hf : ∀ t t', f t = .ok t' → R t t') :
    Keeps R (OnDisk.change failure (OnDisk.attempt f)) := by
  refine change fun t => ?_
  rw [OnDisk.attempt]
  split
  · next t' h => exact hf t t' h
  · exact Std.Refl.refl t

theorem writeFile [Std.Refl R] [Trans R R R] {p : Path} {text : String}
    (hmake : Keeps R (OnDisk.makeAround p))
    (hwrite : ∀ (t t' : FileTree) text, t.writeText p text = .ok t' → R t t') :
    Keeps R (OnDisk.writeFile p text) :=
  bind hmake fun _ => attempt fun t t' => hwrite t t' text

theorem copyFile [Std.Refl R] [Trans R R R] {p : Path} (file : Path)
    (hmake : Keeps R (OnDisk.makeAround p))
    (hwrite : ∀ (t t' : FileTree) text, t.writeText p text = .ok t' → R t t') :
    Keeps R (OnDisk.copyFile file p) :=
  bind hmake fun _ => bind (look _ _) fun _ => bind (attempt fun t t' => hwrite t t' "") fun _ =>
    bind (look _ _) fun text => attempt fun t t' => hwrite t t' text

theorem forM [Std.Refl R] [Trans R R R] {f : α → OnDisk Unit} (xs : List α)
    (hf : ∀ a ∈ xs, Keeps R (f a)) : Keeps R (xs.forM f) := by
  induction xs with
  | nil => exact pure ()
  | cons a xs ih =>
      rw [List.forM]
      exact bind (hf a List.mem_cons_self) fun _ => ih fun b hb => hf b (List.mem_cons_of_mem a hb)

end Keeps

/-- The step changes texts at and below an address only, whether it succeeds or not. -/
def Within (out : List String) (m : OnDisk α) : Prop :=
  ∀ ns, ¬ out <+: ns → Keeps (Same (·.textAt? ns)) m

namespace Within

theorem pure (a : α) : Within out (Pure.pure a) :=
  fun _ _ => .pure a

theorem makeAround (file : Path) : Within out (OnDisk.makeAround file) :=
  fun ns _ => .makeAround fun dir _ t => t.textAt?_makeDirs dir ns

theorem textAt?_writeText {p : Path} (hp : p.isAbsolute = true) (hout : out <+: p.destination)
    {ns : List String} (hns : ¬ out <+: ns) (t t' : FileTree) (text : String)
    (h : t.writeText p text = .ok t') : t'.textAt? ns = t.textAt? ns :=
  FileTree.textAt?_writeText_of_ne hp h fun heq => hns (heq ▸ hout)

theorem writeFile {p : Path} (hp : p.isAbsolute = true) (hout : out <+: p.destination)
    (text : String) : Within out (OnDisk.writeFile p text) :=
  fun ns hns => .writeFile (makeAround p ns hns) (textAt?_writeText hp hout hns)

theorem copyFile {p : Path} (hp : p.isAbsolute = true) (hout : out <+: p.destination)
    (file : Path) : Within out (OnDisk.copyFile file p) :=
  fun ns hns => .copyFile file (makeAround p ns hns) (textAt?_writeText hp hout hns)

end Within

end OnDisk

/-! ## Builds -/

namespace Session

/-- The path is the root of the sources with names joined to it. -/
def IsBelowSource (s : Session) (p : Path) : Prop :=
  ∃ ns, (∀ n ∈ ns, Path.IsName n) ∧ p = s.srcDir.below ns

theorem mem_sourcesIn {s : Session} {dir p : Path} {es : List (String × FileTree)}
    (h : p ∈ s.sourcesIn dir es) : ∃ e ∈ es, p ∈ s.sourcesAt (dir.join e.1) e.2 := by
  induction es with
  | nil => exact absurd h List.not_mem_nil
  | cons e es ih =>
      rw [sourcesIn, List.mem_append] at h
      rcases h with h | h
      · split at h
        · exact absurd h List.not_mem_nil
        · exact ⟨e, List.mem_cons_self, h⟩
      · obtain ⟨e', he', hp⟩ := ih h
        exact ⟨e', List.mem_cons_of_mem e he', hp⟩

theorem below_of_mem_sourcesAt {s : Session} (node : FileTree) : node.Sound → ∀ dir, ∀ p ∈
    s.sourcesAt dir node, ∃ ns, (∀ n ∈ ns, Path.IsName n) ∧ p = dir.below ns := by
  induction node using FileTree.inductOn with
  | leaf text =>
      intro _ dir p hp
      rw [sourcesAt, List.mem_singleton] at hp
      exact ⟨[], fun n hn => absurd hn List.not_mem_nil, hp⟩
  | node es ih =>
      intro hsound dir p hp
      rw [sourcesAt] at hp
      obtain ⟨e, he, hp⟩ := mem_sourcesIn hp
      obtain ⟨ns, hns, rfl⟩ := ih e he (hsound.child he) (dir.join e.1) p hp
      refine ⟨e.1 :: ns, List.forall_mem_cons.2 ⟨hsound.names [] es rfl e he, hns⟩, rfl⟩

theorem isBelowSource_of_mem {s : Session} {t : FileTree} (hsound : t.Sound) {files : List Path}
    (h : s.sourceFiles t = .ok files) : ∀ p ∈ files, s.IsBelowSource p := by
  intro p hp
  unfold sourceFiles at h
  split at h
  · exact nomatch h
  · next es hes =>
      cases h
      rw [sortPaths, (sorted_perm _ _).mem_iff] at hp
      obtain ⟨node, hnode, hread⟩ := Expansion.exists_of_bind_eq_ok hes
      obtain ⟨dest, -, hget⟩ := Expansion.exists_of_bind_eq_ok hnode
      split at hget
      · next node' hget' =>
          cases hget
          cases node with
          | file text => exact nomatch hread
          | dir entries =>
              cases hread
              exact below_of_mem_sourcesAt (.dir es) (hsound.get? hget') s.srcDir p hp
      · exact nomatch hget

/-- A source file has its place below the destination of the output tree. -/
theorem outputPath?_destination {s : Session} (hsrc : s.srcDir.isAbsolute = true)
    (hout : s.outDir.isAbsolute = true) {p target : Path} (hp : s.IsBelowSource p)
    (h : s.outputPath? p = some target) :
    target.isAbsolute = true ∧ s.outDir.destination <+: target.destination := by
  obtain ⟨ns, hns, rfl⟩ := hp
  obtain ⟨habs, hpieces⟩ := Path.pieces_below hsrc hns
  obtain ⟨rel, hrel, hrelative, hnames, -⟩ := Path.relativeTo?_steps habs hsrc hpieces
  rw [outputPath?, hrel] at h
  cases h
  refine ⟨Path.isAbsolute_join hout _, ?_⟩
  rw [Path.destination_join_names hout hrelative hnames]
  exact List.prefix_append _ ns

/-- What the writing of each text keeps the writing of them all keeps. -/
theorem writeProcessed_keeps {R : FileTree → FileTree → Prop} [Std.Refl R] [Trans R R R]
    {s : Session} {rs : List Processed}
    (h : ∀ r ∈ rs, ∀ text, r.2.toOption.bind (·.output?) = some text →
      OnDisk.Keeps R (s.writeOutput r.1 text)) : OnDisk.Keeps R (s.writeProcessed rs) := by
  induction rs with
  | nil => exact .pure ()
  | cons r rs ih =>
      obtain ⟨p, result⟩ := r
      obtain ⟨hr, hrs⟩ := List.forall_mem_cons.1 h
      rw [writeProcessed]
      split
      · next text houtput => exact .bind (hr text houtput) fun _ => ih hrs
      · exact .bind (.pure ()) fun _ => ih hrs

section

variable {s : Session} (hsrc : s.srcDir.isAbsolute = true) (hout : s.outDir.isAbsolute = true)
include hsrc hout

theorem writeOutput_within {p : Path} (hp : s.IsBelowSource p) (text : String) :
    OnDisk.Within s.outDir.destination (s.writeOutput p text) := by
  unfold writeOutput
  split
  · next target htarget =>
      obtain ⟨habs, hbelow⟩ := outputPath?_destination hsrc hout hp htarget
      exact .writeFile habs hbelow text
  · exact .pure ()

theorem copyOutput_within {p : Path} (hp : s.IsBelowSource p) :
    OnDisk.Within s.outDir.destination (s.copyOutput p) := by
  unfold copyOutput
  split
  · next target htarget =>
      obtain ⟨habs, hbelow⟩ := outputPath?_destination hsrc hout hp htarget
      exact .copyFile habs hbelow p
  · exact .pure ()

end

/-- What every write and every copy of a build keeps the build keeps, also if it fails. -/
theorem build_keeps {R : FileTree → FileTree → Prop} [Std.Refl R] [Trans R R R] {s : Session}
    {t : FileTree}
    (hwrite : ∀ r ∈ s.buildResults t, ∀ text, r.2.toOption.bind (·.output?) = some text →
      OnDisk.Keeps R (s.writeOutput r.1 text))
    (hcopy : ∀ files, s.sourceFiles t = .ok files → ∀ p ∈ files.filter (!s.isModule ·),
      OnDisk.Keeps R (s.copyOutput p)) : R t (s.build true t).1.1 := by
  cases hfiles : s.sourceFiles t with
  | error e =>
      rw [build_eq_error hfiles]
      exact Std.Refl.refl t
  | ok files =>
      have hlater := s.processAll_later t (fun _ => true) (files.filter s.isModule)
      rw [buildResults_eq hfiles] at hwrite
      rw [build_eq hfiles]
      generalize s.processAll t (fun _ => true) (files.filter s.isModule) = processed
        at hwrite hlater
      obtain ⟨s', rs⟩ := processed
      obtain ⟨hwrites, hcopies⟩ := output_congr hlater.root hlater.configuration
      refine OnDisk.Keeps.bind ?_ (fun _ => .bind ?_ fun _ => .pure _) t
      · refine writeProcessed_keeps fun r hr text htext => ?_
        rw [hwrites]
        exact hwrite r hr text htext
      · refine .forM _ fun p hp => ?_
        rw [hcopies]
        exact hcopy files hfiles p hp

/-- A build changes texts at and below the destination of the output tree only, also if
it fails. -/
theorem build_within {s : Session} (hsrc : s.srcDir.isAbsolute = true)
    (hout : s.outDir.isAbsolute = true) {t : FileTree} (hsound : t.Sound) {ns : List String}
    (hns : ¬ s.outDir.destination <+: ns) :
    (s.build true t).1.1.textAt? ns = t.textAt? ns := by
  have hwithin : OnDisk.Same (·.textAt? ns) t (s.build true t).1.1 := by
    refine build_keeps (fun r hr text _ => ?_) fun files hfiles p hp => ?_
    · obtain ⟨files, hfiles, hfile, -⟩ := mem_buildResults hr
      exact writeOutput_within hsrc hout (isBelowSource_of_mem hsound hfiles r.1 hfile) text ns hns
    · have hbelow := isBelowSource_of_mem hsound hfiles p (List.mem_filter.1 hp).1
      exact copyOutput_within hsrc hout hbelow ns hns
  exact hwithin

end Session

/-- Removing the output tree changes texts at and below its destination only. -/
theorem Command.runClean_within {s : Session} (hout : s.outDir.isAbsolute = true) (t : FileTree)
    {ns : List String} (hns : ¬ s.outDir.destination <+: ns) :
    (runClean s t).1.textAt? ns = t.textAt? ns := by
  have hremoved := (FileTree.textAt?_removeTree_destination hout t ns).1 hns
  rw [runClean]
  split
  · split
    · next t' h =>
        rw [h] at hremoved
        exact hremoved
    · next t' fault h =>
        rw [h] at hremoved
        exact hremoved
  · rfl

end SiteMacros
