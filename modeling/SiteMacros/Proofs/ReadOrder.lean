import SiteMacros.Proofs.Rearrangements
import SiteMacros.Proofs.Remembered
import SiteMacros.Proofs.Watched

/-!
# The order in which directories are listed

What a session does with a file system does not depend on how the file system lists its
directories (`listing_order_irrelevant`). The steps of an expansion read pages trees and
search for files, which come to the same in two listings, so the steps do (`Unmoved`), and
with them the turns of modules, passes, and runs. A run is bounded by the number of nodes
of the file tree, which is the same as well. Writing the output looks at no listing either
(`OnDisk.Blind`).

Nor does it matter in which order a run is given its modules. They are put in the build
order, which is settled by their paths if all else is equal, and so leaves no choice
between modules with different paths (`inOrder_eq_of_perm`).
-/

namespace SiteMacros

namespace Expansion

open FileTree (Twins)
open Script

variable {α β : Type}

/-! ## Expansions -/

/-- The step comes to the same with another file tree. -/
def Unmoved (s : Surroundings) (tree' : FileTree) (m : Expand α) : Prop :=
  ∀ x, perform m { s with tree := tree' } x = perform m s x

namespace Unmoved

variable {s : Surroundings} {tree' : FileTree}

theorem pure (a : α) : Unmoved s tree' (Pure.pure a) := fun _ => rfl

theorem get : Unmoved s tree' get := fun _ => rfl

theorem throw (e : MacroError) : Unmoved s tree' (throw e : Expand α) := fun _ => rfl

theorem emitting (m : StateM ImportScope α) : Unmoved s tree' (emitting m) := fun _ => rfl

theorem onRegistry (f : Registry → Registry) : Unmoved s tree' (onRegistry f) := fun _ => rfl

theorem modify (f : Expansion → Expansion) : Unmoved s tree' (modify f) := fun _ => rfl

theorem depend (f : Dependencies → Dependencies) : Unmoved s tree' (depend f) := fun _ => rfl

theorem watch (dir : Path) : Unmoved s tree' (watch dir) := fun _ => rfl

theorem settle (r : Except MacroError α) : Unmoved s tree' (settle r) := fun x => by
  rw [perform_settle, perform_settle]

theorem bind {m : Expand α} {f : α → Expand β} (hm : Unmoved s tree' m)
    (hf : ∀ a, Unmoved s tree' (f a)) : Unmoved s tree' (m >>= f) := by
  intro x
  rw [perform_bind, perform_bind, hm x]
  split
  · next a y _ => exact hf a y
  · rfl

/-- A step that goes on with what it has read off the file tree, if that is the same. -/
theorem read_bind {f : Surroundings → Expand β} (hf : Unmoved s tree' (f s))
    (hsame : f { s with tree := tree' } = f s) : Unmoved s tree' (read >>= f) := by
  intro x
  rw [perform_read_bind, perform_read_bind, hsame]
  exact hf x

theorem forM {γ : Type} {f : γ → Expand Unit} (cs : List γ) (hf : ∀ c, Unmoved s tree' (f c)) :
    Unmoved s tree' (cs.forM f) := by
  induction cs with
  | nil => exact pure ()
  | cons c cs ih => exact bind (hf c) fun _ => ih

theorem mapM {γ : Type} {f : γ → Expand α} (cs : List γ) (hf : ∀ c, Unmoved s tree' (f c)) :
    Unmoved s tree' (cs.mapM f) := by
  induction cs with
  | nil => exact pure []
  | cons c cs ih =>
      rw [List.mapM_cons]
      exact bind (hf c) fun _ => bind ih fun _ => pure _

end Unmoved

section

variable {s : Surroundings} {tree' : FileTree} (h : s.tree.Twins tree')

theorem unmoved_enclosingRoute? : Unmoved s tree' enclosingRoute? :=
  .bind .get fun _ => .read_bind (.pure _) rfl

theorem unmoved_resolveRoute (call : MacroCall) : Unmoved s tree' (resolveRoute call) :=
  .bind (.settle _) fun _ => .bind (.depend _) fun _ => .bind .get fun _ =>
    .read_bind (.bind (.settle _) fun _ => .bind (.settle _) fun _ => .pure _) rfl

theorem unmoved_namespacesFor (call : MacroCall) : Unmoved s tree' (namespacesFor call) := by
  have hresolve : Unmoved s tree' (do
      depend fun d => { d with namespaces := true }
      let s ← read
      settle (NamespaceRef.resolve (← get).registry s.file s.root
        s.configuration.translations.globalNamespaces)) :=
    .bind (.depend _) fun _ => .read_bind (.bind .get fun _ => .settle _) rfl
  rw [namespacesFor]
  split
  · exact hresolve
  · exact .bind (.throw _) fun _ => hresolve

include h

theorem unmoved_loadPages (pattern base : String) : Unmoved s tree' (loadPages pattern base) := by
  rw [loadPages_eq]
  refine .read_bind ?_ (congrArg registerPages (h.load_eq _))
  exact .bind (.onRegistry _) fun _ => .bind (.settle _) fun _ => .bind (.depend _) fun _ =>
    .bind (.watch _) fun _ => .pure _

theorem unmoved_loadRouteTranslations (pages : ImportPattern) (route : Route) :
    Unmoved s tree' (loadRouteTranslations pages route) := by
  rw [loadRouteTranslations]
  cases route.translations with
  | none => exact .pure ()
  | some t =>
      refine .read_bind ?_ ?_
      · exact .bind (.settle _) fun _ => .bind (.onRegistry _) fun _ =>
          .bind (.emitting _) fun _ => .bind (.modify _) fun _ => .watch _
      · dsimp only [Surroundings.dir]
        rw [h.translations_ofPage_eq]

theorem unmoved_loadRoutes (call : MacroCall) : Unmoved s tree' (loadRoutes call) := by
  have hload : ∀ pattern base, Unmoved s tree' (do
      let tree ← loadPages pattern base
      let route := Route.ofPage tree.root
      route.flatten.forM (loadRouteTranslations tree.pattern)
      emitting (route.emit (← read).configuration.pages.wrapper)) := by
    intro pattern base
    refine .bind (unmoved_loadPages h pattern base) fun tree => ?_
    exact .bind (.forM _ fun route => unmoved_loadRouteTranslations h _ route) fun _ =>
      .read_bind (.emitting _) rfl
  refine .bind (.settle _) fun pattern => .bind (.settle _) fun base? => ?_
  cases base? with
  | some base => exact .bind (.pure base) fun _ => hload _ _
  | none => exact .bind unmoved_enclosingRoute? fun _ => .bind (.pure _) fun _ => hload _ _

theorem unmoved_loadMenus (call : MacroCall) : Unmoved s tree' (loadMenus call) := by
  have hload : ∀ pattern base, Unmoved s tree' (do
      let tree ← loadPages pattern base
      return Expression.array (← emitting (Menu.emitAll (Menu.ofPage tree.root)))) :=
    fun pattern base => .bind (unmoved_loadPages h pattern base) fun tree =>
      .bind (.emitting _) fun _ => .pure _
  refine .bind (.settle _) fun pattern => .bind (.settle _) fun base? => ?_
  cases base? with
  | some base => exact .bind (.pure base) fun _ => hload _ _
  | none =>
      refine .bind unmoved_enclosingRoute? fun route? => ?_
      cases route? with
      | some base => exact .bind (.pure base) fun _ => hload _ _
      | none => exact .read_bind (.bind (.throw _) fun _ => hload _ _) rfl

theorem unmoved_loadTranslations (call : MacroCall) : Unmoved s tree' (loadTranslations call) := by
  have hpattern : Unmoved s tree' (translationPattern call) := fun x => by
    rw [perform_translationPattern, perform_translationPattern]
    rfl
  have hdirectory : Unmoved s tree' (translationDirectory call) := fun x => by
    rw [perform_translationDirectory, perform_translationDirectory]
    rfl
  refine .bind hpattern fun pattern => .bind hdirectory fun directory => .read_bind ?_ ?_
  · exact .bind (.settle _) fun _ => .bind (.onRegistry _) fun _ => .bind (.depend _) fun _ =>
      .bind (.watch _) fun _ => .emitting _
  · dsimp only [Surroundings.dir]
    rw [h.translations_find_eq]

theorem unmoved_expand (call : MacroCall) : Unmoved s tree' (expand call) := by
  rw [expand]
  split
  · exact unmoved_loadRoutes h call
  · exact unmoved_loadMenus h call
  · exact unmoved_resolveRoute call
  · exact unmoved_loadTranslations h call
  · exact .bind (unmoved_namespacesFor call) fun _ => .read_bind (.emitting _) rfl
  · exact .bind (unmoved_namespacesFor call) fun _ => .read_bind (.emitting _) rfl
  · exact .bind (unmoved_namespacesFor call) fun _ => .pure _

/-- A module comes to the same in both trees, whether it can be expanded or not. -/
theorem expandModule_eq_of_twins (r : Registry) (text : String) :
    expandModule { s with tree := tree' } r text = expandModule s r text := by
  rcases hcalls : analyze s.configuration s.file text with e | _ | ⟨tree, calls⟩
  · rw [expandModule_of_error r hcalls, expandModule_of_error r]
    exact hcalls
  · rw [expandModule_of_none r hcalls, expandModule_of_none r]
    exact hcalls
  · have hunmoved : Unmoved s tree' (expandCalls text (imports tree)
        ((imports tree).filter s.configuration.macroSources.isMacroImport) calls) :=
      .bind (.mapM calls fun call => .bind (unmoved_expand h call) fun _ => .pure _) fun _ =>
        .bind .get fun _ => .pure _
    have hcalls' : analyze { s with tree := tree' }.configuration
        { s with tree := tree' }.file text = .ok (some (tree, calls)) := hcalls
    rw [expandModule_eq_opening hcalls, expandModule_eq_opening hcalls']
    dsimp only
    rw [show opening { s with tree := tree' } tree r = opening s tree r from rfl, hunmoved]

end

end Expansion

namespace Session

open FileTree (Twins)

variable {s : Session} {t t' : FileTree}

/-! ## Runs -/

section

variable (h : t.Twins t')
include h

theorem scan_eq_of_twins (p : Path) : s.scan t' p = s.scan t p := by
  rw [scan, scan, h.alike.readText_eq]

theorem process_eq_of_twins (force : Bool) (p : Path) (s : Session) :
    s.process t' force p = s.process t force p := by
  rw [process, process, h.alike.readText_eq]
  cases t.readText p with
  | error fault => rfl
  | ok text =>
      dsimp only
      have hmodule := Expansion.expandModule_eq_of_twins
        (s := ⟨t, s.configuration, s.root, p⟩) h s.registry text
      dsimp only at hmodule
      rw [hmodule]

theorem pass_eq_of_twins (force : Path → Bool) (ps : List Path) (s : Session) :
    s.pass t' force ps = s.pass t force ps := by
  induction ps generalizing s with
  | nil => rfl
  | cons p ps ih =>
      rw [pass, pass, process_eq_of_twins h]
      dsimp only
      rw [ih]

theorem passes_eq_of_twins (more : Nat) (force : Path → Bool) (ps : List Path) (s : Session) :
    s.passes t' force more ps = s.passes t force more ps := by
  induction more generalizing force ps s with
  | zero => rw [passes, passes, pass_eq_of_twins h]
  | succ more ih =>
      rw [passes, passes, pass_eq_of_twins h]
      simp only [ih]

theorem entryBoundAll_eq_of_twins (ps : List Path) :
    s.entryBoundAll t' ps = s.entryBoundAll t ps := by
  induction ps with
  | nil => rfl
  | cons p ps ih =>
      rw [entryBoundAll, entryBoundAll, ih, entryBound, entryBound, h.alike.readText_eq,
        h.rearranged.nodeCount_eq]

theorem processAll_eq_of_twins (force : Path → Bool) (modules : List Path) (s : Session) :
    s.processAll t' force modules = s.processAll t force modules := by
  have hscans : s.inOrder t' modules = s.inOrder t modules := by
    rw [inOrder, inOrder]
    simp only [scan_eq_of_twins h]
  rw [processAll, processAll, hscans, entryBoundAll_eq_of_twins h, passes_eq_of_twins h]

end

end Session

/-! ## The build order -/

theorem buildOrder.order_eq : buildOrder.order =
    compareLex (compareOn fun a => buildOrder.group a.2)
      (compareLex (compareOn fun a => a.1.components.length) fun a b => a.1.compare b.1) :=
  rfl

instance : Std.TransCmp fun a b : Path × ModuleScan => a.1.compare b.1 where
  eq_swap {a b} := @Std.OrientedCmp.eq_swap _ Path.compare _ a.1 b.1
  isLE_trans {a b c} := @Std.TransCmp.isLE_trans _ Path.compare _ a.1 b.1 c.1

instance : Std.TransCmp buildOrder.order := by
  rw [buildOrder.order_eq]
  infer_instance

theorem buildOrder.le_iff {a b : Path × ModuleScan} :
    buildOrder.le a b = true ↔ (buildOrder.order a b).isLE = true := by
  rw [buildOrder.le]
  cases buildOrder.order a b <;> decide

theorem buildOrder.le_total (a b : Path × ModuleScan) :
    buildOrder.le a b = true ∨ buildOrder.le b a = true := by
  have hswap : buildOrder.order b a = (buildOrder.order a b).swap := Std.OrientedCmp.eq_swap
  rw [le_iff, le_iff, hswap]
  cases buildOrder.order a b <;> simp

theorem buildOrder.le_trans (a b c : Path × ModuleScan) (hab : buildOrder.le a b = true)
    (hbc : buildOrder.le b c = true) : buildOrder.le a c = true :=
  le_iff.2 (Std.TransCmp.isLE_trans (le_iff.1 hab) (le_iff.1 hbc))

/-- Modules that neither comes before the other have one path. -/
theorem buildOrder.components_eq {a b : Path × ModuleScan} (h : buildOrder.le a b = true)
    (h' : buildOrder.le b a = true) : a.1.components = b.1.components := by
  have hswap : buildOrder.order b a = (buildOrder.order a b).swap := Std.OrientedCmp.eq_swap
  rw [le_iff] at h h'
  rw [hswap] at h'
  have heq : buildOrder.order a b = .eq := by
    revert h h'
    cases buildOrder.order a b <;> decide
  rw [order_eq, compareLex_eq_eq, compareLex_eq_eq] at heq
  exact Path.compare_eq_iff.1 heq.2.2

namespace Session

theorem Distinct.eq {modules : List Path} (h : Distinct modules) {p q : Path} (hp : p ∈ modules)
    (hq : q ∈ modules) (heq : p.components = q.components) : p = q := by
  have hsymm : Std.Symm fun p q : Path => p.components ≠ q.components :=
    ⟨fun _ _ hne => hne.symm⟩
  by_contra hne
  exact h.forall hp hq hne heq

/-- The order in which modules are given does not matter to the order in which they are
processed. -/
theorem inOrder_eq_of_perm (s : Session) (tree : FileTree) {modules modules' : List Path}
    (hdistinct : Distinct modules) (h : modules.Perm modules') :
    s.inOrder tree modules' = s.inOrder tree modules := by
  rw [inOrder, inOrder, buildOrder, buildOrder]
  refine congrArg _ (sorted_eq_of_perm buildOrder.le_total buildOrder.le_trans (h.map _) ?_)
  intro a ha b hb hab hba
  obtain ⟨p, hp, rfl⟩ := List.mem_map.1 ha
  obtain ⟨q, hq, rfl⟩ := List.mem_map.1 hb
  rw [hdistinct.eq hp hq (buildOrder.components_eq hab hba)]

theorem entryBoundAll_eq_sum (s : Session) (tree : FileTree) (modules : List Path) :
    s.entryBoundAll tree modules = (modules.map (s.entryBound tree)).sum := by
  induction modules with
  | nil => rfl
  | cons p ps ih => rw [entryBoundAll, ih, List.map_cons, List.sum_cons]

theorem processAll_eq_of_perm (s : Session) (tree : FileTree) (force : Path → Bool)
    {modules modules' : List Path} (hdistinct : Distinct modules) (h : modules.Perm modules') :
    s.processAll tree force modules' = s.processAll tree force modules := by
  rw [processAll, processAll, inOrder_eq_of_perm s tree hdistinct h, entryBoundAll_eq_sum,
    entryBoundAll_eq_sum, (h.map _).sum_nat]

end Session

/-! ## Writing -/

namespace OnDisk

open FileTree (BlindChange OutcomesAlike)

variable {α β : Type}

/-- The step comes to the same in trees that hold the same, and leaves them so. -/
def Blind (m : OnDisk α) : Prop :=
  ∀ t t' : FileTree, t.Alike t' →
    (m.run t').1 = (m.run t).1 ∧ (m.run t).2.Alike (m.run t').2

namespace Blind

theorem pure (a : α) : Blind (Pure.pure a : OnDisk α) := fun _ _ h => ⟨rfl, h⟩

theorem bind {m : OnDisk α} {f : α → OnDisk β} (hm : Blind m) (hf : ∀ a, Blind (f a)) :
    Blind (m >>= f) := by
  intro t t' h
  obtain ⟨hresult, htree⟩ := hm t t' h
  rw [run_bind, run_bind]
  revert hresult htree
  rcases m.run t with ⟨result, u⟩
  rcases m.run t' with ⟨result', u'⟩
  rintro rfl htree
  cases result' with
  | error e => exact ⟨rfl, htree⟩
  | ok a => exact hf a u u' htree

theorem look (failure : FileFault → Failure) {f : FileTree → Except FileFault α}
    (hf : ∀ {t t' : FileTree}, t.Alike t' → f t' = f t) : Blind (OnDisk.look failure f) := by
  intro t t' h
  rw [run_look, run_look, hf h]
  cases f t with
  | error fault => exact ⟨rfl, h⟩
  | ok a => exact ⟨rfl, h⟩

theorem change (failure : FileFault → Failure) {f : FileTree → FileTree.Changed}
    (hf : BlindChange f) : Blind (OnDisk.change failure f) := by
  intro t t' h
  obtain ⟨hresult, htree⟩ := hf h
  rw [run_change, run_change]
  revert hresult htree
  rcases f t with ⟨u, result⟩
  rcases f t' with ⟨u', result'⟩
  rintro rfl htree
  cases result' with
  | error e => exact ⟨rfl, htree⟩
  | ok a => exact ⟨rfl, htree⟩

theorem forM {f : α → OnDisk Unit} (xs : List α) (hf : ∀ a, Blind (f a)) : Blind (xs.forM f) := by
  induction xs with
  | nil => exact pure ()
  | cons a xs ih => exact bind (hf a) fun _ => ih

theorem makeAround (file : Path) : Blind (OnDisk.makeAround file) := by
  rw [OnDisk.makeAround]
  split
  · exact change _ (FileTree.blind_makeDirs _)
  · exact pure ()

theorem writeFile (file : Path) (text : String) : Blind (OnDisk.writeFile file text) :=
  bind (makeAround file) fun _ => change _ (OutcomesAlike.attempt fun h => h.writeText file text)

theorem copyFile (file target : Path) : Blind (OnDisk.copyFile file target) :=
  bind (makeAround target) fun _ => bind (look _ fun h => h.readText_eq file) fun _ =>
    bind (change _ (OutcomesAlike.attempt fun h => h.writeText target "")) fun _ =>
      bind (look _ fun h => h.readText_eq file) fun text =>
        change _ (OutcomesAlike.attempt fun h => h.writeText target text)

end Blind

end OnDisk

namespace Session

open FileTree (Twins)

variable {s : Session} {t t' : FileTree}

theorem blind_writeOutput (s : Session) (file : Path) (text : String) :
    OnDisk.Blind (s.writeOutput file text) := by
  unfold writeOutput
  split
  · exact .writeFile _ text
  · exact .pure ()

theorem blind_copyOutput (s : Session) (file : Path) : OnDisk.Blind (s.copyOutput file) := by
  unfold copyOutput
  split
  · exact .copyFile file _
  · exact .pure ()

theorem blind_writeProcessed (s : Session) (rs : List Processed) :
    OnDisk.Blind (s.writeProcessed rs) := by
  induction rs with
  | nil => exact .pure ()
  | cons r rs ih =>
      obtain ⟨p, result⟩ := r
      rw [writeProcessed]
      cases result.toOption.bind (·.output?) with
      | none => exact .bind (.pure ()) fun _ => ih
      | some text => exact .bind (s.blind_writeOutput p text) fun _ => ih

/-- A build comes to the same in both trees, and leaves trees that hold the same. -/
theorem build_eq_of_twins (h : t.Twins t') (write : Bool) (s : Session) :
    (s.build write t').2 = (s.build write t).2 ∧
      (s.build write t').1.2 = (s.build write t).1.2 ∧
      (s.build write t).1.1.Alike (s.build write t').1.1 := by
  cases hfiles : s.sourceFiles t with
  | error e =>
      have hfiles' := (sourceFiles_eq_of_twins h).trans hfiles
      unfold build
      rw [hfiles, hfiles']
      exact ⟨rfl, rfl, h.alike⟩
  | ok files =>
      have hfiles' := (sourceFiles_eq_of_twins h).trans hfiles
      cases write with
      | false =>
          unfold build
          rw [hfiles, hfiles']
          simp only [processAll_eq_of_twins h]
          exact ⟨rfl, rfl, h.alike⟩
      | true =>
          rw [build_eq hfiles, build_eq hfiles', processAll_eq_of_twins h]
          dsimp only
          generalize s.processAll t (fun _ => true) (files.filter s.isModule) = processed
          have hwriting : OnDisk.Blind (do
              processed.1.writeProcessed processed.2
              (files.filter (!s.isModule ·)).forM processed.1.copyOutput
              return { BuildReport.ofProcessed processed.2 with
                copied := (files.filter (!s.isModule ·)).length }) :=
            .bind (blind_writeProcessed _ _) fun _ =>
              .bind (.forM _ fun p => blind_copyOutput _ p) fun _ => .pure _
          obtain ⟨hresult, htree⟩ := hwriting t t' h.alike
          exact ⟨hresult, rfl, htree⟩

/-- The order in which a file system lists its directories goes into nothing: not into the
pages trees that are read, the pages visited on the way among them; not into what patterns
match, nor into the list of source files; not into the report of a build, the session after
it, and the files that it leaves. Nor does the order in which a run is given its modules, as
long as they are different. -/
theorem listing_order_irrelevant (hsound : t.Sound) (h : t.Rearranged t') :
    (∀ req, PageTree.load t' req = PageTree.load t req) ∧
      (∀ p : ImportPattern, p.findFiles t' = p.findFiles t) ∧
      (∀ s : Session, s.sourceFiles t' = s.sourceFiles t) ∧
      (∀ (s : Session) (write : Bool), (s.build write t').2 = (s.build write t).2 ∧
        (s.build write t').1.2 = (s.build write t).1.2 ∧
        (s.build write t).1.1.Alike (s.build write t').1.1) ∧
      ∀ (s : Session) (force : Path → Bool) (modules modules' : List Path), Distinct modules →
        modules.Perm modules' → s.processAll t' force modules' = s.processAll t force modules := by
  have htwins := h.twins hsound
  refine ⟨htwins.load_eq, htwins.findFiles_eq, fun s => sourceFiles_eq_of_twins htwins,
    fun s write => build_eq_of_twins htwins write s,
    fun s force modules modules' hmodules hperm => ?_⟩
  rw [processAll_eq_of_twins htwins, processAll_eq_of_perm s t force hmodules hperm]

/-- Two modules that register namespaces, listed in two orders and given in two orders. -/
theorem listing_order_irrelevant_swapped :
    let a : String × FileTree :=
      ("a.ts", .file "import\x7bloadI18n\x7dfrom\"i18n.macro\"\nloadI18n(\"./*.yaml\")")
    let b : String × FileTree :=
      ("b.ts", .file "import\x7bloadI18n\x7dfrom\"i18n.macro\"\nloadI18n(\"./*.yaml\",\"..\")")
    let t : FileTree := .dir [("src", .dir [a, b])]
    let t' : FileTree := .dir [("src", .dir [b, a])]
    let s : Session := { root := ⟨"/"⟩, configuration := {} }
    t ≠ t' ∧ s.sourceFiles t' = .ok [⟨"/src/a.ts"⟩, ⟨"/src/b.ts"⟩] ∧
      (s.build true t').1.2.registry.namespaces = (s.build true t).1.2.registry.namespaces ∧
      (s.build true t).1.1.Alike (s.build true t').1.1 ∧
      (s.processAll t' (fun _ => false) [⟨"/src/b.ts"⟩, ⟨"/src/a.ts"⟩]).2 =
        (s.processAll t (fun _ => false) [⟨"/src/a.ts"⟩, ⟨"/src/b.ts"⟩]).2 := by
  intro a b t t' s
  have hsound : t.Sound := by decide +kernel
  have hrearranged : t.Rearranged t' :=
    .dir (.refl _) (.cons (.dir (.swap _ _ _) (.cons (.file _) (.cons (.file _) .nil))) .nil)
  obtain ⟨-, -, hfiles, hbuild, hprocess⟩ := listing_order_irrelevant hsound hrearranged
  obtain ⟨-, hsession, htree⟩ := hbuild s true
  refine ⟨by decide, ?_, congrArg (·.registry.namespaces) hsession, htree, ?_⟩
  · rw [hfiles]
    decide +kernel
  · rw [hprocess s _ [⟨"/src/a.ts"⟩, ⟨"/src/b.ts"⟩] _ (List.pairwise_pair.2 (by decide +kernel))
      (.swap _ _ _)]

end Session

end SiteMacros
