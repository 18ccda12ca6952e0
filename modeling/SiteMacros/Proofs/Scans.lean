import SiteMacros.Proofs.Remembered
import SiteMacros.Proofs.Tags

/-!
# What a scan tells

A scan looks at the imports and calls of a module and expands nothing. It sees what
the expansion sees: both begin with the same analysis of the text, and the scan is a
summary of it (`scanModule_eq`). So it is right about the macros, and about
registrations it is right in both directions. Each call leaves the tag of its macro in
an expanded module; a call of a macro that does not register leaves the mark for
registrations alone (`silent_expand`), and it has no entries to add to the registry
either, whether it fails or not (`registrable_eq_nil`).

A module that registers nothing leaves its session as it was but for its own place in
the cache. Modules of this kind therefore do not see one another: whatever the order,
each has the result that it has alone (`pass_of_quiet`).
-/

namespace SiteMacros

namespace Expansion

open Script

variable {α β : Type}

/-! ## The scan and the analysis -/

/-- A scan sums up the analysis that an expansion begins with. -/
theorem scanModule_eq (c : Configuration) (file : Path) (text : String) :
    scanModule c file text =
      match analyze c file text with
      | .error _ => { usesMacros := true }
      | .ok none => {}
      | .ok (some (_, calls)) =>
          { usesMacros := true, registers := calls.any (·.callee.registers) } := by
  rw [scanModule, analyze]
  cases parse (.ofPath file) text with
  | error e =>
      dsimp only
      cases c.macroSources.mentionedIn text <;> rfl
  | ok tree =>
      dsimp only
      cases c.macroSources.bindings (imports tree) with
      | error e => rfl
      | ok bindings =>
          cases (imports tree).any c.macroSources.isMacroImport with
          | false => rfl
          | true =>
              simp only [bind, Except.bind]
              cases findCalls text bindings tree <;> rfl

/-! ## Calls that do not register -/

/-- A step that leaves the mark for registrations as it is. -/
def Silent (s : Surroundings) (m : Expand α) : Prop :=
  ∀ x, (perform m s x).2.dependencies.registers = x.dependencies.registers

namespace Silent

variable {s : Surroundings}

theorem pure (a : α) : Silent s (Pure.pure a) := fun _ => rfl

theorem read : Silent s read := fun _ => rfl

theorem get : Silent s get := fun _ => rfl

theorem throw (e : MacroError) : Silent s (throw e : Expand α) := fun _ => rfl

theorem emitting (m : StateM ImportScope α) : Silent s (emitting m) := fun _ => rfl

theorem settle (r : Except MacroError α) : Silent s (settle r) :=
  fun x => by rw [perform_settle]

theorem depend {f : Dependencies → Dependencies} (h : ∀ d, (f d).registers = d.registers) :
    Silent s (depend f) :=
  fun x => h x.dependencies

theorem bind {m : Expand α} {f : α → Expand β} (hm : Silent s m) (hf : ∀ a, Silent s (f a)) :
    Silent s (m >>= f) := by
  intro x
  have hfirst := hm x
  rcases hrun : perform m s x with ⟨e | a, y⟩ <;> rw [hrun] at hfirst
  · rwa [perform_bind_error s x hrun]
  · rw [perform_bind_ok s x hrun]
    exact (hf a y).trans hfirst

theorem mapM {γ : Type} {f : γ → Expand α} {cs : List γ} (hf : ∀ c ∈ cs, Silent s (f c)) :
    Silent s (cs.mapM f) := by
  induction cs with
  | nil => exact pure []
  | cons c cs ih =>
      obtain ⟨hc, hcs⟩ := List.forall_mem_cons.1 hf
      rw [List.mapM_cons]
      exact bind hc fun _ => bind (ih hcs) fun _ => pure _

end Silent

section
variable {s : Surroundings} {call : MacroCall}

theorem silent_resolveRoute (call : MacroCall) : Silent s (resolveRoute call) := by
  refine .bind (.settle _) fun _ => .bind (.depend fun _ => rfl) fun _ => ?_
  refine .bind .get fun _ => .bind .read fun _ => ?_
  exact .bind (.settle _) fun _ => .bind (.settle _) fun _ => .pure _

theorem silent_namespacesFor (call : MacroCall) : Silent s (namespacesFor call) := by
  have hresolve : Silent s (do
      depend fun d => { d with namespaces := true }
      let s ← read
      settle (NamespaceRef.resolve (← get).registry s.file s.root
        s.configuration.translations.globalNamespaces)) :=
    .bind (.depend fun _ => rfl) fun _ => .bind .read fun _ => .bind .get fun _ => .settle _
  rw [namespacesFor]
  dsimp only
  split
  · exact hresolve
  · exact .bind (.throw _) fun _ => hresolve

theorem silent_expand (h : call.callee.registers = false) : Silent s (expand call) := by
  rw [expand]
  cases hcallee : call.callee with
  | loadRoutes | loadMenus | loadTranslations =>
      rw [hcallee] at h
      cases h
  | resolveRoute => exact silent_resolveRoute call
  | useTranslations | getTranslations =>
      exact .bind (silent_namespacesFor call) fun _ => .bind .read fun _ => .emitting _
  | resolveNamespace => exact .bind (silent_namespacesFor call) fun _ => .pure _

theorem registrable_eq_nil (h : call.callee.registers = false) : registrable s call = [] := by
  rw [registrable]
  cases hcallee : call.callee <;> rw [hcallee] at h <;> first | rfl | cases h

end

theorem notedBy_registers (m : MacroName) : (notedBy m).registers = m.registers := by
  cases m <;> rfl

/-! ## The scan and the expansion -/

section
variable {s : Surroundings} {r : Registry} {text : String}

theorem scanModule_usesMacros_iff :
    (scanModule s.configuration s.file text).usesMacros = false ↔
      (expandModule s r text).2 = .ok none := by
  rw [scanModule_eq]
  rcases hcalls : analyze s.configuration s.file text with e | _ | ⟨tree, calls⟩
  · rw [expandModule_of_error r hcalls]
    simp
  · rw [expandModule_of_none r hcalls]
    simp
  · obtain ⟨ds, macroImports, scope, hmodule⟩ := expandModule_of_calls hcalls
    have hsome : (expandModule s r text).2 ≠ .ok none := by
      rw [hmodule]
      dsimp only
      cases (perform (expandCalls text ds macroImports calls) s { registry := r, scope }).1 <;>
        exact fun h => nomatch h
    simp [hsome]

/-- An expanded module is marked as registering if the scan has said so. -/
theorem scanModule_registers_eq {m : ExpandedModule}
    (h : (expandModule s r text).2 = .ok (some m)) :
    (scanModule s.configuration s.file text).registers = m.dependencies.registers := by
  rcases hcalls : analyze s.configuration s.file text with e | _ | ⟨tree, calls⟩
  · rw [expandModule_of_error r hcalls] at h
    cases h
  · rw [expandModule_of_none r hcalls] at h
    cases h
  · rw [scanModule_eq, hcalls]
    dsimp only
    cases hany : calls.any (·.callee.registers) with
    | true =>
        obtain ⟨call, hcall, hregisters⟩ := List.any_eq_true.1 hany
        rw [← notedBy_registers] at hregisters
        exact ((noted_of_expandModule hcalls h hcall).registers hregisters).symm
    | false =>
        have hsilent : Silent s (calls.mapM (expandCall text)) := .mapM fun call hcall =>
          .bind (silent_expand (Bool.eq_false_iff.2 (List.any_eq_false.1 hany call hcall)))
            fun _ => .pure _
        obtain ⟨ds, macroImports, scope, hmodule⟩ := expandModule_of_calls hcalls
        have hmark := hsilent ⟨r, scope, {}, []⟩
        rw [hmodule] at h
        dsimp only at h
        rcases hrun : perform (calls.mapM (expandCall text)) s ⟨r, scope, {}, []⟩
          with ⟨e | edits, y⟩
        · rw [perform_expandCalls_error ds macroImports hrun] at h
          cases h
        · rw [perform_expandCalls_ok ds macroImports hrun] at h
          rw [hrun] at hmark
          cases h
          exact hmark.symm

/-- A module that the scan has not marked leaves the registry alone, also if it
fails. -/
theorem expandModule_registry_eq
    (h : (scanModule s.configuration s.file text).registers = false) :
    (expandModule s r text).1 = r := by
  have hentries : moduleEntries s text = [] := by
    rw [scanModule_eq] at h
    rw [moduleEntries]
    rcases hcalls : analyze s.configuration s.file text with e | _ | ⟨tree, calls⟩
    · rfl
    · rfl
    · rw [hcalls] at h
      refine List.flatMap_eq_nil_iff.2 fun call hcall => registrable_eq_nil ?_
      exact Bool.eq_false_iff.2 (List.any_eq_false.1 h call hcall)
  obtain ⟨added, hadded, hregistry⟩ := expandModule_grows s r text
  rw [hentries] at hadded
  rw [hregistry, List.eq_nil_iff_forall_not_mem.2 fun e he => List.not_mem_nil (hadded e he)]
  rfl

end

end Expansion

namespace Session

open Expansion

variable {tree : FileTree} {s s' : Session} {ps : List Path}

/-! ## Modules that register nothing -/

theorem scan_congr (hconfiguration : s'.configuration = s.configuration) (tree : FileTree)
    (p : Path) : s'.scan tree p = s.scan tree p := by
  rw [scan, scan, hconfiguration]

/-- What becomes of a module depends on the project, the registry, and the module's own
place in the cache. -/
theorem process_congr (hroot : s'.root = s.root)
    (hconfiguration : s'.configuration = s.configuration) (hregistry : s'.registry = s.registry)
    {p : Path} (hcache : s'.cache.get? p = s.cache.get? p) (b : Bool) :
    (s'.process tree b p).2 = (s.process tree b p).2 := by
  rw [process, process]
  cases tree.readText p with
  | error fault => rfl
  | ok text =>
      dsimp only
      rw [isFresh_congr hcache, hroot, hconfiguration, hregistry]
      split
      · rfl
      · rcases (expandModule ⟨tree, s.configuration, s.root, p⟩ s.registry text).2 with e | _ | m
          <;> rfl

/-- `s'` is the session `s` but for what the cache has. -/
structure UpToCache (s s' : Session) : Prop where
  root : s'.root = s.root
  configuration : s'.configuration = s.configuration
  registry : s'.registry = s.registry

theorem UpToCache.trans {s'' : Session} (h : UpToCache s s') (h' : UpToCache s' s'') :
    UpToCache s s'' :=
  ⟨h'.root.trans h.root, h'.configuration.trans h.configuration, h'.registry.trans h.registry⟩

/-- A module that registers nothing changes the cache at most. -/
theorem process_of_quiet {p : Path} (hquiet : (s.scan tree p).registers = false) (b : Bool) :
    UpToCache s (s.process tree b p).1 := by
  rw [scan] at hquiet
  rw [process]
  cases htext : tree.readText p with
  | error fault => exact ⟨rfl, rfl, rfl⟩
  | ok text =>
      rw [htext] at hquiet
      dsimp only at hquiet ⊢
      split
      · exact ⟨rfl, rfl, rfl⟩
      · have hregistry : (expandModule (s.surroundings tree p) s.registry text).1 = s.registry :=
          expandModule_registry_eq hquiet
        rw [surroundings] at hregistry
        rcases (expandModule ⟨tree, s.configuration, s.root, p⟩ s.registry text).2 with e | _ | m
          <;> exact ⟨rfl, rfl, hregistry⟩

/-- In a pass over modules that register nothing each has the result that it has
alone. -/
theorem pass_of_quiet (force : Path → Bool) (hps : Distinct ps)
    (hquiet : ∀ p ∈ ps, (s.scan tree p).registers = false) :
    UpToCache s (s.pass tree force ps).1 ∧
      (s.pass tree force ps).2 = ps.map fun p => (p, (s.process tree (force p) p).2) := by
  suffices h : ∀ {s' : Session}, UpToCache s s' → (∀ p ∈ ps, s'.cache.get? p = s.cache.get? p) →
      UpToCache s (s'.pass tree force ps).1 ∧
        (s'.pass tree force ps).2 = ps.map fun p => (p, (s.process tree (force p) p).2) from
    h ⟨rfl, rfl, rfl⟩ fun _ _ => rfl
  induction ps with
  | nil => exact fun hs' _ => ⟨hs', rfl⟩
  | cons p ps ih =>
      intro s' hs' hcache
      obtain ⟨hp, hps⟩ := List.pairwise_cons.1 hps
      obtain ⟨hpquiet, hquiet⟩ := List.forall_mem_cons.1 hquiet
      obtain ⟨hpcache, hcache⟩ := List.forall_mem_cons.1 hcache
      rw [← scan_congr hs'.configuration] at hpquiet
      -- the place of a later module is not the one that this turn touches
      obtain ⟨hafter, hresults⟩ := ih hps hquiet (hs'.trans (process_of_quiet hpquiet (force p)))
        fun q hq => (get?_process_of_ne (Ne.symm (hp q hq))).trans (hcache q hq)
      rw [pass, List.map_cons]
      refine ⟨hafter, congrArg₂ List.cons ?_ hresults⟩
      exact congrArg (Prod.mk p)
        (process_congr hs'.root hs'.configuration hs'.registry hpcache (force p))

/-- One pass is all that such modules have, and the results are those of the pass. -/
theorem processAll_of_quiet (force : Path → Bool) (hps : Distinct ps)
    (hquiet : ∀ p ∈ ps, (s.scan tree p).registers = false) :
    UpToCache s (s.processAll tree force ps).1 ∧
      (s.processAll tree force ps).2.Perm (ps.map fun p => (p, (s.process tree (force p) p).2)) := by
  have horder := s.inOrder_perm tree ps
  obtain ⟨hafter, hresults⟩ := pass_of_quiet force (s.inOrder_distinct tree hps)
    fun p hp => hquiet p (horder.mem_iff.1 hp)
  have hsettles : Settles tree force (s.inOrder tree ps) s _ _ :=
    .done (.inr (congrArg Registry.size hafter.registry))
  obtain ⟨hfinal, hall⟩ := hsettles.unique (s.processAll_settles tree force ps)
  rw [hfinal, hall]
  refine ⟨hafter, (settled_append_waiting_perm _).trans ?_⟩
  rw [hresults]
  exact horder.map _

end Session

/-! ## The scan is right -/

section
open Expansion Session

/-- A scan agrees with the expansion, in any surroundings and with any registry: about
the use of macros, about what an expanded module is marked with, and about a registry
that has changed. So modules that register nothing by their scans can be processed in
any order: the registry stays as it is, and each has the result that it has alone. -/
theorem scan_agrees_with_expansion :
    (∀ (s : Surroundings) (r : Registry) (text : String),
      let scan := scanModule s.configuration s.file text
      (scan.usesMacros = false ↔ (expandModule s r text).2 = .ok none) ∧
      (∀ m, (expandModule s r text).2 = .ok (some m) →
        scan.registers = m.dependencies.registers) ∧
      ((expandModule s r text).1 ≠ r → scan.registers = true)) ∧
    ∀ (s : Session) (tree : FileTree) (force : Path → Bool) (ps : List Path), Distinct ps →
      (∀ p ∈ ps, (s.scan tree p).registers = false) →
      let alone := fun p => (p, (s.process tree (force p) p).2)
      (∀ qs, qs.Perm ps → (s.pass tree force qs).1.registry = s.registry ∧
        (s.pass tree force qs).2 = qs.map alone) ∧
      (s.processAll tree force ps).1.registry = s.registry ∧
      (s.processAll tree force ps).2.Perm (ps.map alone) := by
  refine ⟨fun s r text => ⟨scanModule_usesMacros_iff, fun m => scanModule_registers_eq, ?_⟩, ?_⟩
  · intro hchanged
    rw [← Bool.not_eq_false]
    exact fun hquiet => hchanged (expandModule_registry_eq hquiet)
  · intro s tree force ps hps hquiet
    have hall := processAll_of_quiet force hps hquiet
    refine ⟨fun qs hqs => ?_, hall.1.registry, hall.2⟩
    have hdistinct : Distinct qs := (hqs.pairwise_iff fun hne => Ne.symm hne).2 hps
    obtain ⟨hafter, hresults⟩ := pass_of_quiet force hdistinct
      fun p hp => hquiet p (hqs.mem_iff.1 hp)
    exact ⟨hafter.registry, hresults⟩

/-- A module that fails after it has registered its translations, and two modules that
ask for a route, of which the later one is processed first. -/
theorem scan_agrees_on_failing_module :
    let file : Path := ⟨"/p/src/a.ts"⟩
    let surroundings : Surroundings := {
      tree := .dir [("p", .dir [("src", .dir [("en.yaml", .file "")])])]
      configuration := {}, root := ⟨"/p"⟩, file }
    let failing := "import { loadI18n, useI18n } from \"i18n.macro\";\n" ++
      "loadI18n(\"./*.yaml\");\nuseI18n(1);\n"
    let asking := "import { resolveRoute } from \"pages.macro\";\nresolveRoute();\n"
    let tree : FileTree := .dir [("p", .dir [("src", .dir [("pages", .dir [
      ("x.ts", .file asking), ("y.ts", .file asking)])])])]
    let x : Path := ⟨"/p/src/pages/x.ts"⟩
    let y : Path := ⟨"/p/src/pages/y.ts"⟩
    let s : Session := {
      root := ⟨"/p"⟩, configuration := {}
      registry := { routes := PathMap.insert {} ⟨"/p/src/pages"⟩ "/a" } }
    let m : ExpandedModule := { code := "\"/a\";\n", dependencies := { pageStructure := true } }
    ((expandModule surroundings {} failing).1 ≠ {} ∧
        (scanModule {} file failing).registers = true) ∧
      (scanModule {} x asking).registers = m.dependencies.registers ∧
      (s.pass tree (fun _ => false) [y, x]).1.registry = s.registry ∧
      (s.pass tree (fun _ => false) [y, x]).2 =
        [(y, .ok (.expanded m.code)), (x, .ok (.expanded m.code))] := by
  intro file surroundings failing asking tree x y s m
  obtain ⟨hmodule, hrun⟩ := scan_agrees_with_expansion
  have hchanged : (expandModule surroundings {} failing).1 ≠ {} := fun h =>
    absurd (congrArg Registry.size h) (by decide +kernel)
  have hexpanded : (expandModule (s.surroundings tree x) s.registry asking).2 = .ok (some m) := by
    decide +kernel
  have hdistinct : Distinct [x, y] := List.pairwise_pair.2 (by decide +kernel)
  have hquiet : ∀ p ∈ [x, y], (s.scan tree p).registers = false := by decide +kernel
  have halone : [y, x].map (fun p => (p, (s.process tree false p).2)) =
      [(y, .ok (.expanded m.code)), (x, .ok (.expanded m.code))] := by decide +kernel
  obtain ⟨hany, -, -⟩ := hrun s tree (fun _ => false) [x, y] hdistinct hquiet
  obtain ⟨hregistry, hresults⟩ := hany [y, x] (.swap x y [])
  exact ⟨⟨hchanged, (hmodule surroundings {} failing).2.2 hchanged⟩,
    (hmodule (s.surroundings tree x) s.registry asking).2.1 m hexpanded,
    hregistry, hresults.trans halone⟩

end

end SiteMacros
