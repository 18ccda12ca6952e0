import SiteMacros.Proofs.Beside
import SiteMacros.Proofs.Resources

/-!
# One file system listed in two ways

A file system does not say in which order it lists the entries of a directory. Two
listings of it are two file trees, of which the one is the other with the entries of every
directory in another order (`Rearranged`). Then they hold the same files and directories
(`Rearranged.alike`); and where the entries of a directory have names of their own, trees
that hold the same are rearrangements of each other (`rearranged_iff_alike`). Both views
are needed: what walks by names is settled by the second, what counts or collects nodes by
the first.

What reads files comes to the same in both trees. Walks do not look at listings at all.
Searches and pages trees put what they have found in the order of names. The source files
are put in the order of their paths, which settles their list because no two of them have
the same components (`components_below`).
-/

namespace SiteMacros

/-- Things that are in order both ways only if they are the same are sorted in one way. -/
theorem sorted_eq_of_perm {α : Type} {le : α → α → Bool}
    (htotal : ∀ a b, le a b = true ∨ le b a = true)
    (htrans : ∀ a b c, le a b = true → le b c = true → le a c = true) {xs ys : List α}
    (h : xs.Perm ys)
    (hsame : ∀ a ∈ xs, ∀ b ∈ xs, le a b = true → le b a = true → a = b) :
    sorted le ys = sorted le xs := by
  refine List.Perm.eq_of_pairwise (fun a b ha hb hab hba => ?_)
    (sorted_pairwise htotal htrans ys) (sorted_pairwise htotal htrans xs)
    (((sorted_perm le ys).trans h.symm).trans (sorted_perm le xs).symm)
  rw [(sorted_perm le ys).mem_iff, ← h.mem_iff] at ha
  rw [(sorted_perm le xs).mem_iff] at hb
  exact hsame a ha b hb hab hba

namespace FileTree

variable {a b t t' : FileTree}

mutual

/-- The second tree is the first one with the entries of each directory in another
order. -/
inductive Rearranged : FileTree → FileTree → Prop where
  | file (text : String) : Rearranged (.file text) (.file text)
  | dir {es gs fs : List (String × FileTree)} (order : es.Perm gs)
      (within : RearrangedWithin gs fs) : Rearranged (.dir es) (.dir fs)

/-- Entries with the same names in the same places, each rearranged. -/
inductive RearrangedWithin :
    List (String × FileTree) → List (String × FileTree) → Prop where
  | nil : RearrangedWithin [] []
  | cons {name : String} {a b : FileTree} {es fs : List (String × FileTree)}
      (node : Rearranged a b) (rest : RearrangedWithin es fs) :
      RearrangedWithin ((name, a) :: es) ((name, b) :: fs)

end

/-! ## The same files and directories -/

theorem child?_eq_get? (t : FileTree) (n : String) : t.child? n = t.get? [n] := by
  rw [get?]
  cases t.child? n <;> rfl

/-- At an address there is nothing in both trees, or nodes that are alike. -/
theorem Alike.get?_cases (h : a.Alike b) (ns : List String) :
    (a.get? ns = none ∧ b.get? ns = none) ∨
      ∃ c c', a.get? ns = some c ∧ b.get? ns = some c' ∧ c.Alike c' := by
  cases hc : a.get? ns with
  | none =>
      have hthere := h ns
      rw [hc] at hthere
      exact .inl ⟨rfl, Option.map_eq_none_iff.1 hthere.symm⟩
  | some c =>
      obtain ⟨c', hc', halike⟩ := h.get? hc
      exact .inr ⟨c, c', rfl, hc', halike⟩

/-- Trees hold the same if they do so entry by entry. -/
theorem alike_iff : a.Alike b ↔
    a.bare = b.bare ∧ ∀ n, Option.Rel Alike (a.child? n) (b.child? n) := by
  constructor
  · intro h
    refine ⟨h.bare_eq, fun n => ?_⟩
    rw [child?_eq_get?, child?_eq_get?]
    rcases h.get?_cases [n] with ⟨hc, hc'⟩ | ⟨c, c', hc, hc', halike⟩ <;> rw [hc, hc']
    · exact .none
    · exact .some halike
  · rintro ⟨hbare, hchild⟩ ns
    cases ns with
    | nil => exact congrArg some hbare
    | cons n ns =>
        have hboth := hchild n
        rw [get?, get?]
        revert hboth
        cases a.child? n <;> cases b.child? n <;> rintro (halike | _)
        · rfl
        · exact ‹Alike _ _› ns

theorem Sound.of_entries {es : List (String × FileTree)} (hnames : ∀ e ∈ es, Path.IsName e.1)
    (hdistinct : (es.map (·.1)).Nodup) (hes : ∀ e ∈ es, e.2.Sound) : (dir es).Sound :=
  sound_dir _ rfl (List.forall_mem_map.2 hnames) hdistinct hes

mutual

theorem Rearranged.sound_alike : {a b : FileTree} → Rearranged a b → a.Sound →
    b.Sound ∧ a.Alike b
  | _, _, .file _, hsound => ⟨hsound, fun _ => rfl⟩
  | _, _, @Rearranged.dir es gs fs order within, hsound => by
      obtain ⟨hnames, hdistinct, hes⟩ := hsound.entries
      have hgs : (gs.map (·.1)).Nodup := (order.map _).nodup_iff.1 hdistinct
      obtain ⟨hsame, hfs, hlookup⟩ := within.sound_alike fun e he => hes e (order.mem_iff.2 he)
      rw [hsame] at hgs
      have hordered := alike_of_perm hdistinct order
      have hwithin : (FileTree.dir gs).Alike (.dir fs) := alike_iff.2 ⟨rfl, hlookup⟩
      refine ⟨.of_entries (fun f hf => ?_) hgs hfs, fun ns => (hordered ns).trans (hwithin ns)⟩
      have hname : f.1 ∈ gs.map (·.1) := hsame ▸ List.mem_map_of_mem hf
      obtain ⟨e, he, heq⟩ := List.mem_map.1 hname
      exact heq ▸ hnames e (order.mem_iff.2 he)

theorem RearrangedWithin.sound_alike : {es fs : List (String × FileTree)} →
    RearrangedWithin es fs → (∀ e ∈ es, e.2.Sound) →
    es.map (·.1) = fs.map (·.1) ∧ (∀ f ∈ fs, f.2.Sound) ∧
      ∀ n, Option.Rel Alike (es.lookup n) (fs.lookup n)
  | _, _, .nil, _ => ⟨rfl, fun _ hf => absurd hf List.not_mem_nil, fun _ => .none⟩
  | _, _, @RearrangedWithin.cons name a b es fs node rest, hsound => by
      obtain ⟨ha, hes⟩ := List.forall_mem_cons.1 hsound
      obtain ⟨hb, halike⟩ := node.sound_alike ha
      obtain ⟨hsame, hfs, hlookup⟩ := rest.sound_alike hes
      refine ⟨congrArg (name :: ·) hsame, List.forall_mem_cons.2 ⟨hb, hfs⟩, fun n => ?_⟩
      rw [List.lookup_cons, List.lookup_cons]
      cases n == name with
      | true => exact .some halike
      | false => exact hlookup n

end

theorem Rearranged.sound (h : t.Rearranged t') (hsound : t.Sound) : t'.Sound :=
  (h.sound_alike hsound).1

theorem Rearranged.alike (h : t.Rearranged t') (hsound : t.Sound) : t.Alike t' :=
  (h.sound_alike hsound).2

theorem rearrangedWithin_map {f g : String × FileTree → FileTree} (es : List (String × FileTree))
    (h : ∀ e ∈ es, Rearranged (f e) (g e)) :
    RearrangedWithin (es.map fun e => (e.1, f e)) (es.map fun e => (e.1, g e)) := by
  induction es with
  | nil => exact .nil
  | cons e es ih =>
      obtain ⟨he, hes⟩ := List.forall_mem_cons.1 h
      exact .cons he (ih hes)

theorem Alike.rearranged (a : FileTree) : ∀ {b : FileTree}, a.Sound → b.Sound → a.Alike b →
    a.Rearranged b := by
  induction a using FileTree.inductOn with
  | leaf text =>
      intro b _ _ h
      rw [h.eq_file]
      exact .file text
  | node es ih =>
      intro b ha hb h
      obtain ⟨fs, rfl⟩ := h.eq_dir
      have hes := ha.distinct [] es rfl
      have hfs := hb.distinct [] fs rfl
      -- each entry of `fs` has its counterpart in `es`: these, in the order of `fs`
      let counterpart : String × FileTree → FileTree := fun f => (es.lookup f.1).getD f.2
      have hcounterpart : ∀ f ∈ fs, (f.1, counterpart f) ∈ es ∧ f.2.Alike (counterpart f) := by
        intro f hf
        obtain ⟨c, hc, halike⟩ := h.symm.entry hfs hf
        have heq : counterpart f = c := by
          show (es.lookup f.1).getD f.2 = c
          rw [lookup_of_mem hes hc]
          rfl
        rw [heq]
        exact ⟨hc, halike⟩
      have hnodup : ((fs.map fun f => (f.1, counterpart f)).map (·.1)).Nodup := by
        rw [List.map_map]
        exact hfs
      have hmem : ∀ e, e ∈ es ↔ e ∈ fs.map fun f => (f.1, counterpart f) := by
        intro e
        constructor
        · intro he
          obtain ⟨c', hc', -⟩ := h.entry hes he
          refine List.mem_map.2 ⟨(e.1, c'), hc', ?_⟩
          have hthere := lookup_of_mem hes (hcounterpart _ hc').1
          rw [lookup_of_mem hes he] at hthere
          exact Prod.ext rfl (Option.some.inj hthere).symm
        · intro he
          obtain ⟨f, hf, rfl⟩ := List.mem_map.1 he
          exact (hcounterpart f hf).1
      have horder := (List.perm_ext_iff_of_nodup (.of_map _ hes) (.of_map _ hnodup)).2 hmem
      have hwithin := rearrangedWithin_map (f := counterpart) (g := (·.2)) fs fun f hf =>
        ih _ (hcounterpart f hf).1 (ha.child (hcounterpart f hf).1) (hb.child hf)
          (hcounterpart f hf).2.symm
      refine .dir horder ?_
      rwa [show fs.map (fun e => (e.1, e.2)) = fs from List.map_id fs] at hwithin

/-- Two listings of one file system hold the same, and the other way round. -/
theorem rearranged_iff_alike (h : t.Sound) (h' : t'.Sound) : t.Rearranged t' ↔ t.Alike t' :=
  ⟨fun hrearranged => hrearranged.alike h, Alike.rearranged t h h'⟩

/-! ## Walks -/

namespace Alike

variable (h : t.Alike t')
include h

theorem walk_eq (pieces : List String) : ∀ here, t'.walk here pieces = t.walk here pieces := by
  have hbelow : SameBelow t t' [] := h
  induction pieces with
  | nil => exact fun here => rfl
  | cons piece rest ih =>
      intro here
      have hstep : t'.walk here [piece] = t.walk here [piece] := hbelow.walk_eq here piece
      rw [show piece :: rest = [piece] ++ rest from rfl, walk_append, walk_append, hstep]
      cases t.walk here [piece] with
      | error e => rfl
      | ok dest => exact ih dest

theorem address_eq (p : Path) : t'.address p = t.address p := by
  rw [address, address]
  split
  · rfl
  · exact h.walk_eq _ []

/-- A path leads to nodes that are alike, or to the same fault. -/
theorem find_cases (p : Path) :
    (∃ fault, t.find p = .error fault ∧ t'.find p = .error fault) ∨
      ∃ node node', t.find p = .ok node ∧ t'.find p = .ok node' ∧ node.Alike node' := by
  simp only [find, h.address_eq, bind, Except.bind]
  cases t.address p with
  | error fault => exact .inl ⟨fault, rfl, rfl⟩
  | ok here =>
      dsimp only
      rcases h.get?_cases here with ⟨hc, hc'⟩ | ⟨c, c', hc, hc', halike⟩ <;> rw [hc, hc']
      · exact .inl ⟨_, rfl, rfl⟩
      · exact .inr ⟨c, c', rfl, rfl, halike⟩

theorem exists?_eq (p : Path) : t'.exists? p = t.exists? p := by
  rw [exists?, exists?]
  rcases h.find_cases p with ⟨fault, hfind, hfind'⟩ | ⟨node, node', hfind, hfind', -⟩ <;>
    rw [hfind, hfind']

theorem isDir_eq (p : Path) : t'.isDir p = t.isDir p := by
  rw [isDir, isDir]
  rcases h.find_cases p with ⟨fault, hfind, hfind'⟩ | ⟨node, node', hfind, hfind', halike⟩
  · rw [hfind, hfind']
  · rw [hfind, hfind']
    cases node with
    | file text => rw [halike.eq_file]
    | dir es =>
        obtain ⟨fs, rfl⟩ := halike.eq_dir
        rfl

theorem isFile_eq (p : Path) : t'.isFile p = t.isFile p := by
  rw [isFile, isFile]
  rcases h.find_cases p with ⟨fault, hfind, hfind'⟩ | ⟨node, node', hfind, hfind', halike⟩
  · rw [hfind, hfind']
  · rw [hfind, hfind']
    cases node with
    | file text => rw [halike.eq_file]
    | dir es =>
        obtain ⟨fs, rfl⟩ := halike.eq_dir
        rfl

theorem readText_eq (p : Path) : t'.readText p = t.readText p := by
  simp only [readText, bind, Except.bind]
  rcases h.find_cases p with ⟨fault, hfind, hfind'⟩ | ⟨node, node', hfind, hfind', halike⟩
  · rw [hfind, hfind']
  · rw [hfind, hfind']
    cases node with
    | file text => rw [halike.eq_file]
    | dir es =>
        obtain ⟨fs, rfl⟩ := halike.eq_dir
        rfl

end Alike

/-! ## Changes -/

/-- What is put at one address of both trees is there in both. -/
theorem Alike.set (h : a.Alike b) (ns : List String) (new : FileTree) :
    (a.set ns new).Alike (b.set ns new) := by
  induction ns generalizing a b with
  | nil => exact fun _ => rfl
  | cons n ns ih =>
      have hchild := (alike_iff.1 h).2
      refine alike_iff.2 ⟨rfl, fun m => ?_⟩
      show Option.Rel Alike ((putEntry n _ a.entries).lookup m) ((putEntry n _ b.entries).lookup m)
      by_cases hm : m = n
      · rw [hm, lookup_putEntry_self, lookup_putEntry_self]
        have hn := hchild n
        revert hn
        cases a.child? n <;> cases b.child? n <;> rintro (halike | _)
        · exact .some (ih fun _ => rfl)
        · exact .some (ih ‹Alike _ _›)
      · rw [lookup_putEntry_ne hm, lookup_putEntry_ne hm]
        exact hchild m

/-- Two changes of trees have come to the same: the same fault, or trees that hold the
same. -/
inductive OutcomesAlike : Except FileFault FileTree → Except FileFault FileTree → Prop where
  | ok {t t' : FileTree} (h : t.Alike t') : OutcomesAlike (.ok t) (.ok t')
  | error (fault : FileFault) : OutcomesAlike (.error fault) (.error fault)

section

variable (h : t.Alike t')
include h

theorem Alike.directoryAt_eq (pieces : List String) :
    t'.directoryAt pieces = t.directoryAt pieces := by
  simp only [directoryAt, h.walk_eq, bind, Except.bind]
  cases t.walk [] pieces with
  | error fault => rfl
  | ok here =>
      dsimp only
      rcases h.get?_cases here with ⟨hc, hc'⟩ | ⟨c, c', hc, hc', halike⟩ <;> rw [hc, hc']
      cases c with
      | file text => rw [halike.eq_file]
      | dir es =>
          obtain ⟨fs, rfl⟩ := halike.eq_dir
          rfl

theorem Alike.makeDir (p : Path) : OutcomesAlike (t.makeDir p) (t'.makeDir p) := by
  rw [FileTree.makeDir, FileTree.makeDir]
  cases lastStep p with
  | none => exact .error _
  | some last =>
      simp only [h.directoryAt_eq, bind, Except.bind]
      cases t.directoryAt last.1 with
      | error fault => exact .error fault
      | ok here =>
          dsimp only
          cases isStep last.2 with
          | true => exact .error _
          | false =>
              rw [if_neg Bool.false_ne_true, if_neg Bool.false_ne_true]
              rcases h.get?_cases (here ++ [last.2]) with ⟨hc, hc'⟩ | ⟨c, c', hc, hc', -⟩ <;>
                rw [hc, hc']
              · exact .ok (h.set _ _)
              · exact .error _

theorem Alike.writeText (p : Path) (text : String) :
    OutcomesAlike (t.writeText p text) (t'.writeText p text) := by
  rw [FileTree.writeText, FileTree.writeText]
  cases lastStep p with
  | none => exact .error _
  | some last =>
      simp only [h.directoryAt_eq, bind, Except.bind]
      cases t.directoryAt last.1 with
      | error fault => exact .error fault
      | ok here =>
          dsimp only
          split
          · exact .error _
          · rcases h.get?_cases (here ++ [last.2]) with ⟨hc, hc'⟩ | ⟨c, c', hc, hc', halike⟩ <;>
              rw [hc, hc']
            · exact .ok (h.set _ _)
            · cases c with
              | file old =>
                  rw [halike.eq_file]
                  exact .ok (h.set _ _)
              | dir es =>
                  obtain ⟨fs, rfl⟩ := halike.eq_dir
                  exact .error _

end

/-- The change comes to the same in trees that hold the same, and leaves them so. -/
def BlindChange (f : FileTree → Changed) : Prop :=
  ∀ {t t' : FileTree}, t.Alike t' → (f t').2 = (f t).2 ∧ (f t).1.Alike (f t').1

/-- The tree after a change, if it succeeded, and the outcome. -/
theorem OutcomesAlike.attempt {f : FileTree → Except FileFault FileTree}
    (hf : ∀ {t t' : FileTree}, t.Alike t' → OutcomesAlike (f t) (f t')) :
    BlindChange (OnDisk.attempt f) := by
  intro t t' h
  have hboth := hf h
  rw [OnDisk.attempt, OnDisk.attempt]
  revert hboth
  generalize f t = made, f t' = made'
  rintro (hmade | fault)
  · exact ⟨rfl, hmade⟩
  · exact ⟨rfl, h⟩

theorem blind_makeDirsAt (ps : List Path) : BlindChange (·.makeDirsAt ps) := by
  induction ps with
  | nil => exact fun h => ⟨rfl, h⟩
  | cons p around ih =>
      intro t t' h
      show (t'.makeDirsAt (p :: around)).2 = (t.makeDirsAt (p :: around)).2 ∧
        (t.makeDirsAt (p :: around)).1.Alike (t'.makeDirsAt (p :: around)).1
      have hdir := h.isDir_eq p
      have hmade := h.makeDir p
      have haround : (t'.makeDirsAt around).2 = (t.makeDirsAt around).2 ∧
          (t.makeDirsAt around).1.Alike (t'.makeDirsAt around).1 := ih h
      rw [makeDirsAt, makeDirsAt]
      revert hmade haround
      generalize t.makeDir p = made, t'.makeDir p = made', t.makeDirsAt around = first,
        t'.makeDirsAt around = first'
      rintro (hmade | fault) ⟨hresult, hfirst⟩
      · exact ⟨rfl, hmade⟩
      · cases fault with
        | notFound =>
            obtain ⟨u, result⟩ := first
            obtain ⟨u', result'⟩ := first'
            dsimp only at hresult hfirst ⊢
            subst hresult
            cases result' with
            | error fault => exact ⟨rfl, hfirst⟩
            | ok _ =>
                have hagain := hfirst.makeDir p
                have hdir := hfirst.isDir_eq p
                dsimp only
                rw [hdir]
                revert hagain
                generalize u.makeDir p = made, u'.makeDir p = made'
                rintro (hmade | fault)
                · exact ⟨rfl, hmade⟩
                · exact ⟨rfl, hfirst⟩
        | _ =>
            dsimp only
            rw [hdir]
            exact ⟨rfl, h⟩

theorem blind_makeDirs (p : Path) : BlindChange (·.makeDirs p) := by
  intro t t' h
  show (t'.makeDirs p).2 = (t.makeDirs p).2 ∧ (t.makeDirs p).1.Alike (t'.makeDirs p).1
  rw [makeDirs, makeDirs]
  split
  · exact ⟨rfl, h⟩
  · exact blind_makeDirsAt _ h

/-! ## Counting -/

theorem entryCount_eq_sum (es : List (String × FileTree)) :
    entryCount es = (es.map (·.2.nodeCount)).sum := by
  induction es with
  | nil => rfl
  | cons e es ih => rw [entryCount, ih, List.map_cons, List.sum_cons]

mutual

theorem Rearranged.nodeCount_eq : {a b : FileTree} → Rearranged a b → b.nodeCount = a.nodeCount
  | _, _, .file _ => rfl
  | _, _, .dir order within => by
      rw [nodeCount, nodeCount, within.entryCount_eq, entryCount_eq_sum, entryCount_eq_sum,
        (order.map _).sum_nat]

theorem RearrangedWithin.entryCount_eq : {es fs : List (String × FileTree)} →
    RearrangedWithin es fs → entryCount fs = entryCount es
  | _, _, .nil => rfl
  | _, _, .cons node rest => by
      rw [entryCount, entryCount, node.nodeCount_eq, rest.entryCount_eq]

end

/-- The trees hold the same, and the entries of their directories have names of their
own. -/
structure Twins (t t' : FileTree) : Prop where
  sound : t.Sound
  sound' : t'.Sound
  alike : t.Alike t'

theorem Twins.rearranged (h : t.Twins t') : t.Rearranged t' :=
  (rearranged_iff_alike h.sound h.sound').2 h.alike

theorem Rearranged.twins (h : t.Rearranged t') (hsound : t.Sound) : t.Twins t' :=
  ⟨hsound, h.sound hsound, h.alike hsound⟩

/-- A path leads to the same in both trees. -/
theorem Twins.find_cases (h : t.Twins t') (p : Path) :
    (∃ fault, t.find p = .error fault ∧ t'.find p = .error fault) ∨
      ∃ node node', t.find p = .ok node ∧ t'.find p = .ok node' ∧ node.Twins node' := by
  rcases h.alike.find_cases p with hfault | ⟨node, node', hfind, hfind', halike⟩
  · exact .inl hfault
  · exact .inr ⟨node, node', hfind, hfind', h.sound.find hfind, h.sound'.find hfind', halike⟩

end FileTree

/-! ## Searches -/

namespace Glob

open FileTree (Alike Twins)

variable {t t' : FileTree}

theorem below_congr (visit : String → Path → List Path) (node : FileTree) :
    ∀ {node' : FileTree}, node.Twins node' → ∀ p, below visit p node' = below visit p node := by
  induction node using FileTree.inductOn with
  | leaf text =>
      intro node' h p
      rw [h.alike.eq_file]
  | node es ih =>
      intro node' h p
      obtain ⟨fs, rfl⟩ := h.alike.eq_dir
      have hes := h.sound.distinct [] es rfl
      have hfs := h.sound'.distinct [] fs rfl
      rw [below, below, belowEntries_eq, belowEntries_eq]
      refine inOrder_congr h.alike hes hfs fun name c c' hc hc' halike => ?_
      rw [ih (name, c) hc ⟨h.sound.child hc, h.sound'.child hc', halike⟩]

/-- A walk finds the same in both trees, in the same order. -/
theorem walkSteps_congr (h : t.Twins t') : (steps : List Step) → (p : Path) →
    walkSteps t' steps p = walkSteps t steps p
  | [], _ => rfl
  | .literal name :: rest, p => by
      rw [walkSteps, walkSteps, h.alike.isDir_eq, h.alike.exists?_eq, walkSteps_congr h rest]
  | .wild ts :: rest, p => by
      rcases h.find_cases p with ⟨fault, hfind, hfind'⟩ | ⟨node, node', hfind, hfind', htwins⟩
      · rw [walkSteps, walkSteps, hfind, hfind']
      · cases node with
        | file text =>
            rw [htwins.alike.eq_file] at hfind'
            rw [walkSteps, walkSteps, hfind, hfind']
        | dir es =>
            obtain ⟨fs, rfl⟩ := htwins.alike.eq_dir
            have hrest : walkSteps t' rest = walkSteps t rest := funext (walkSteps_congr h rest)
            rw [walkSteps_wild hfind, walkSteps_wild hfind', hrest]
            exact congrArg _ (inOrder_congr htwins.alike (htwins.sound.distinct [] es rfl)
              (htwins.sound'.distinct [] fs rfl) fun _ _ _ _ _ _ => rfl)
  | [.deep], p => by
      have hdir : t'.isDir = t.isDir := funext h.alike.isDir_eq
      rw [walkSteps, walkSteps, hdir]
      rcases h.find_cases p with ⟨fault, hfind, hfind'⟩ | ⟨node, node', hfind, hfind', htwins⟩
      · rw [hfind, hfind']
      · rw [hfind, hfind']
        exact below_congr _ node htwins p
  | .deep :: next :: rest, p => by
      have hrest : walkSteps t' rest = walkSteps t rest := funext (walkSteps_congr h rest)
      rw [walkSteps, walkSteps, hrest]
      rcases h.find_cases p with ⟨fault, hfind, hfind'⟩ | ⟨node, node', hfind, hfind', htwins⟩
      · rw [hfind, hfind']
      · rw [hfind, hfind']
        exact below_congr _ node htwins p

end Glob

namespace FileTree.Twins

variable {t t' : FileTree} (h : t.Twins t')
include h

theorem findFiles_eq (p : ImportPattern) : p.findFiles t' = p.findFiles t := by
  rw [ImportPattern.findFiles_eq, ImportPattern.findFiles_eq]
  have haccepts : p.accepts t' = p.accepts t := by
    funext q
    rw [ImportPattern.accepts, ImportPattern.accepts, h.alike.isFile_eq]
  simp only [Glob.walkSteps_congr h, haccepts]

theorem load_eq (req : PageRequest) : PageTree.load t' req = PageTree.load t req := by
  cases hpattern : ImportPattern.resolve req.pattern req.importer req.root with
  | error e => rw [PageTree.load, PageTree.load, hpattern]
  | ok pattern =>
      rcases h.find_cases pattern.target with ⟨fault, hfind, hfind'⟩ | hfound
      · rw [PageTree.load, PageTree.load, hpattern]
        dsimp only
        rw [hfind, hfind']
      · obtain ⟨node, node', hfind, hfind', htwins⟩ := hfound
        exact PageTree.load_congr h.sound h.sound' hpattern
          ⟨node, node', hfind, hfind', htwins.alike⟩

theorem translations_find_eq (req : Translations.Request) :
    Translations.find t' req = Translations.find t req := by
  rw [Translations.find, Translations.find]
  simp only [h.findFiles_eq]

theorem translations_ofPage_eq (id : String) (dir : Path) (languages : Option (List String))
    (specifierOf : Path → String) :
    Translations.ofPage t' id dir languages specifierOf =
      Translations.ofPage t id dir languages specifierOf := by
  rw [Translations.ofPage, Translations.ofPage]
  simp only [h.findFiles_eq]

end FileTree.Twins

/-! ## Source files -/

theorem Path.components_below {ns : List String} (hns : ∀ n ∈ ns, IsName n) (p : Path) :
    (p.below ns).components = p.components ++ ns.map .name := by
  induction ns generalizing p with
  | nil => exact (List.append_nil _).symm
  | cons n ns ih =>
      obtain ⟨hn, hns⟩ := List.forall_mem_cons.1 hns
      have hjoin : (p.join n).components = p.components ++ [.name n] := by
        rw [FileTree.components_join hn.noSlash (.inr ⟨hn.ne_empty, hn.ne_here⟩),
          FileTree.stepOf_of_name hn.ne_empty hn.ne_here hn.ne_parent]
        rfl
      show ((p.join n).below ns).components = _
      rw [ih hns, hjoin, List.append_assoc]
      rfl

theorem Path.components_eq_of_le {p q : Path} (h : p.le q = true) (h' : q.le p = true) :
    p.components = q.components := by
  have hswap : q.compare p = (p.compare q).swap := Std.OrientedCmp.eq_swap
  rw [le_iff] at h h'
  rw [hswap] at h'
  refine compare_eq_iff.1 ?_
  revert h h'
  cases p.compare q <;> decide

/-- Paths that compare equal only if they are the same are sorted in one way. -/
theorem sortPaths_eq_of_perm {ps qs : List Path} (h : ps.Perm qs)
    (hps : ∀ p ∈ ps, ∀ q ∈ ps, p.components = q.components → p = q) :
    sortPaths qs = sortPaths ps :=
  sorted_eq_of_perm Path.le_total Path.le_trans h fun p hp q hq hpq hqp =>
    hps p hp q hq (Path.components_eq_of_le hpq hqp)

namespace Session

open FileTree (Rearranged RearrangedWithin Twins)

variable {s : Session}

theorem sourcesIn_perm_of_perm (dir : Path) {es gs : List (String × FileTree)}
    (h : es.Perm gs) : (s.sourcesIn dir es).Perm (s.sourcesIn dir gs) := by
  have hflat : ∀ xs : List (String × FileTree), s.sourcesIn dir xs = xs.flatMap fun e =>
      if s.isSkipped (dir.join e.1) e.1 then [] else s.sourcesAt (dir.join e.1) e.2 := by
    intro xs
    induction xs with
    | nil => rfl
    | cons x xs ih => rw [sourcesIn, ih, List.flatMap_cons]
  rw [hflat, hflat]
  exact h.flatMap_right _

mutual

/-- The same source files are met in both trees. -/
theorem sourcesAt_perm : {a b : FileTree} → Rearranged a b → (p : Path) →
    (s.sourcesAt p a).Perm (s.sourcesAt p b)
  | _, _, .file _, _ => List.Perm.refl _
  | _, _, .dir order within, p =>
      (sourcesIn_perm_of_perm p order).trans (sourcesIn_perm within p)

theorem sourcesIn_perm : {es fs : List (String × FileTree)} → RearrangedWithin es fs →
    (dir : Path) → (s.sourcesIn dir es).Perm (s.sourcesIn dir fs)
  | _, _, .nil, _ => List.Perm.refl _
  | _, _, .cons node rest, dir => by
      rw [sourcesIn, sourcesIn]
      refine List.Perm.append ?_ (sourcesIn_perm rest dir)
      split
      · exact List.Perm.refl _
      · exact sourcesAt_perm node _

end

theorem sourceFiles_eq_of_twins {t t' : FileTree} (h : t.Twins t') :
    s.sourceFiles t' = s.sourceFiles t := by
  unfold sourceFiles FileTree.readEntries
  rcases h.find_cases s.srcDir with ⟨fault, hfind, hfind'⟩ | ⟨node, node', hfind, hfind', htwins⟩
  · rw [hfind, hfind']
  · rw [hfind, hfind']
    cases node with
    | file text => rw [htwins.alike.eq_file]
    | dir es =>
        obtain ⟨fs, rfl⟩ := htwins.alike.eq_dir
        refine congrArg Except.ok (sortPaths_eq_of_perm ?_ fun p hp q hq heq => ?_)
        · exact sourcesAt_perm htwins.rearranged s.srcDir
        · obtain ⟨ns, hns, rfl⟩ := below_of_mem_sourcesAt (.dir es) htwins.sound s.srcDir p hp
          obtain ⟨ms, hms, rfl⟩ := below_of_mem_sourcesAt (.dir es) htwins.sound s.srcDir q hq
          rw [Path.components_below hns, Path.components_below hms,
            List.append_cancel_left_eq] at heq
          rw [List.map_injective_iff.2 (fun _ _ => Component.name.inj) heq]

end Session

end SiteMacros
