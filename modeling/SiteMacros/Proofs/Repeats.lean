import SiteMacros.Proofs.Lockstep

/-!
# Expanding a module again

A module may be expanded more than once against one registry: when it is forced,
or when a pass is repeated. The second run finds what the first has registered, and
that is why it need not come to the same. A module that loads a pages tree without a
base asks for the route around it; if the tree has the module in it, the first run
has put a route there, and each run moves the pages further down
(`expandModule_moves_pages`).

The second run does come to the same, and leaves the registry as it is, if the
registry in the end answers each call as the call was answered in the first run
(`expandModule_again`). The first run leaves registrations `es` before a call, so
the call is answered by `r.registerAll es` in the first run and by
`r'.registerAll es` in the second, where `r'` has come out of the former. Of the
answer of `r'` there are two cases. Either it is an entry among `es`; then both
registries give it, with the route that is in `es`. Or `es` does not touch it, and
the second registry answers as `r'`.
-/

namespace SiteMacros

namespace PathMap

variable {α : Type}

theorem ext_entries {m m' : PathMap α} (h : m.entries = m'.entries) : m = m' := by
  cases m
  cases m'
  cases h
  rfl

/-- A table is settled by its members, since they are in order. -/
theorem ext_mem {m m' : PathMap α} (h : ∀ e, e ∈ m.entries ↔ e ∈ m'.entries) : m = m' := by
  have hirrefl : ∀ e : Path × α, ¬ Path.Before e e := fun e he =>
    absurd he (by rw [Path.Before, Path.compare_eq_iff.2 rfl]; exact Ordering.noConfusion)
  have hne : ∀ {e f : Path × α}, Path.Before e f → e ≠ f := by
    rintro e f hef rfl
    exact hirrefl e hef
  have hperm : m.entries.Perm m'.entries :=
    (List.perm_ext_iff_of_nodup (m.inOrder.imp hne) (m'.inOrder.imp hne)).2 h
  refine ext_entries (hperm.eq_of_pairwise (fun e f _ _ hef hfe => ?_) m.inOrder m'.inOrder)
  have hee : e.1.compare e.1 = .lt := Std.TransCmp.lt_trans hef hfe
  exact absurd hee (hirrefl e)

/-- A table is settled by what it has at each path. -/
theorem ext_entryAt? {m m' : PathMap α} (h : ∀ q, m.entryAt? q = m'.entryAt? q) : m = m' :=
  ext_mem fun e => by rw [mem_entries_iff, mem_entries_iff, h]

end PathMap

namespace Registry

/-! ## What registrations leave -/

/-- The route that registrations leave for a directory, if any does: the last one. -/
def routeAmong (dir : Path) : List Registration → Option String
  | [] => none
  | .loaded _ :: es => routeAmong dir es
  | .route page route :: es =>
      (routeAmong dir es).or (if dir.components = page.components then some route else none)

theorem routeAmong_isSome {dir : Path} {es : List Registration} :
    (routeAmong dir es).isSome = true ↔ .route dir.components ∈ es.map (·.entry) := by
  induction es with
  | nil => simp [routeAmong]
  | cons e es ih =>
      cases e with
      | loaded id => simp [routeAmong, ih, Registration.entry]
      | route page route =>
          rw [routeAmong, Option.isSome_or, Bool.or_eq_true, ih, List.map_cons, List.mem_cons,
            Registration.entry, Entry.route.injEq, or_comm]
          split <;> simp_all

theorem mem_of_routeAmong {dir : Path} {es : List Registration} {route : String}
    (h : routeAmong dir es = some route) :
    ∃ page, .route page route ∈ es ∧ page.components = dir.components := by
  induction es with
  | nil => exact nomatch h
  | cons e es ih =>
      have hlater (h : routeAmong dir es = some route) :
          ∃ page, .route page route ∈ e :: es ∧ page.components = dir.components := by
        obtain ⟨page, hpage, hsame⟩ := ih h
        exact ⟨page, List.mem_cons_of_mem e hpage, hsame⟩
      cases e with
      | loaded id => exact hlater h
      | route page route' =>
          rw [routeAmong] at h
          rcases Option.or_eq_some_iff.1 h with h | ⟨-, h⟩
          · exact hlater h
          · split at h
            · next hsame =>
                cases h
                exact ⟨page, List.mem_cons_self, hsame.symm⟩
            · exact nomatch h

/-- Registrations that give one route to a directory leave it that route. -/
theorem routeAmong_eq_some {page dir : Path} {es : List Registration} {route : String}
    (hpage : .route page route ∈ es) (hsame : page.components = dir.components)
    (hone : ∀ page' route', .route page' route' ∈ es → page'.components = dir.components →
      route' = route) : routeAmong dir es = some route := by
  have hsome : (routeAmong dir es).isSome = true :=
    routeAmong_isSome.2 (List.mem_map.2 ⟨_, hpage, congrArg Entry.route hsame⟩)
  obtain ⟨route', hroute'⟩ := Option.isSome_iff_exists.1 hsome
  obtain ⟨page', hpage', hsame'⟩ := mem_of_routeAmong hroute'
  rw [hroute', hone page' route' hpage' hsame']

theorem entryAt?_registerAll {r : Registry} {dir : Path} {e : Path × String}
    (h : r.routes.entryAt? dir = some e) (es : List Registration) :
    (r.registerAll es).routes.entryAt? dir = some (e.1, (routeAmong dir es).getD e.2) := by
  induction es generalizing r e with
  | nil => exact h
  | cons x es ih =>
      rw [registerAll_cons]
      cases x with
      | loaded id =>
          refine ih ?_
          rw [register, registerNamespace]
          split <;> exact h
      | route page route =>
          by_cases hsame : dir.components = page.components
          · have hentry : (r.register (.route page route)).routes.entryAt? dir =
                some (e.1, route) := by
              rw [register, registerRoute, PathMap.entryAt?_insert_of_same _ hsame.symm]
              rw [h]
              rfl
            rw [ih hentry, routeAmong, if_pos hsame]
            cases routeAmong dir es <;> rfl
          · have hentry : (r.register (.route page route)).routes.entryAt? dir = some e := by
              rw [register, registerRoute,
                PathMap.entryAt?_insert_of_ne _ (fun heq => hsame heq.symm), h]
            rw [ih hentry, routeAmong, if_neg hsame, Option.or_none]

theorem get?_registerAll (r : Registry) (es : List Registration) (dir : Path) :
    (r.registerAll es).routes.get? dir = (routeAmong dir es).or (r.routes.get? dir) := by
  induction es generalizing r with
  | nil => rfl
  | cons e es ih =>
      rw [registerAll_cons, ih]
      cases e with
      | loaded id =>
          have hroutes : (r.register (.loaded id)).routes = r.routes := by
            rw [register, registerNamespace]
            split <;> rfl
          rw [routeAmong, hroutes]
      | route page route =>
          rw [register, registerRoute, PathMap.get?_insert, routeAmong, Option.or_assoc]
          split <;> rfl

theorem mem_namespaces_registerAll (r : Registry) (es : List Registration) (id : String) :
    id ∈ (r.registerAll es).namespaces ↔ id ∈ r.namespaces ∨ .loaded id ∈ es.map (·.entry) := by
  have h := has_registerAll r es (.loaded id)
  rw [Bool.eq_iff_iff, Bool.or_eq_true, List.any_eq_true] at h
  simpa [has] using h

/-- Registering what is there changes nothing. -/
theorem registerAll_eq_self {r : Registry} {es : List Registration}
    (hroutes : ∀ dir route, routeAmong dir es = some route → r.routes.get? dir = some route)
    (hnamespaces : ∀ id, .loaded id ∈ es.map (·.entry) → id ∈ r.namespaces) :
    r.registerAll es = r := by
  have hsame : (r.registerAll es).routes = r.routes := by
    refine PathMap.ext_entryAt? fun dir => ?_
    have hroute := hroutes dir
    cases h : r.routes.entryAt? dir with
    | none =>
        have hget := get?_registerAll r es dir
        rw [PathMap.get?, PathMap.get?, h] at hget
        cases hamong : routeAmong dir es with
        | none =>
            rw [hamong] at hget
            exact Option.map_eq_none_iff.1 hget
        | some route =>
            have hthere := hroute route hamong
            rw [PathMap.get?, h] at hthere
            cases hthere
    | some e =>
        rw [entryAt?_registerAll h]
        cases hamong : routeAmong dir es with
        | none => rfl
        | some route =>
            have hthere := hroute route hamong
            rw [PathMap.get?, h] at hthere
            rw [← Option.some.inj hthere]
            rfl
  have hloaded : (r.registerAll es).namespaces = r.namespaces := by
    clear hroutes hsame
    induction es generalizing r with
    | nil => rfl
    | cons e es ih =>
        have hstep : (r.register e).namespaces = r.namespaces := by
          cases e with
          | route page route => rfl
          | loaded id =>
              rw [register, registerNamespace, dif_pos (hnamespaces id List.mem_cons_self)]
        rw [registerAll_cons, ih fun id hid => ?_, hstep]
        rw [hstep]
        exact hnamespaces id (List.mem_cons_of_mem _ hid)
  generalize r.registerAll es = r' at hsame hloaded
  cases r
  cases r'
  cases hsame
  cases hloaded
  rfl

theorem registerAll_again (r : Registry) (es : List Registration) :
    (r.registerAll es).registerAll es = r.registerAll es := by
  refine registerAll_eq_self (fun dir route h => ?_) fun id h => ?_
  · rw [get?_registerAll, h]
    rfl
  · exact (mem_namespaces_registerAll r es id).2 (.inr h)

/-! ## Answers after registering again -/

theorem answer_eq_some_iff {r : Registry} {dir : Path} {cs : List Component} {route : String} :
    r.answer dir = some (cs, route) ↔
      ∃ near a far, dir.ancestors = near ++ a :: far ∧ a.components = cs ∧
        r.routes.get? a = some route ∧ ∀ b ∈ near, r.routes.get? b = none := by
  rw [answer_eq_findSome?, List.findSome?_eq_some_iff]
  simp only [Option.map_eq_some_iff, Option.map_eq_none_iff, Prod.mk.injEq, and_comm, and_assoc,
    exists_eq_left]

theorem answer_eq_none_iff {r : Registry} {dir : Path} :
    r.answer dir = none ↔ ∀ a ∈ dir.ancestors, r.routes.get? a = none := by
  rw [answer_eq_findSome?, List.findSome?_eq_none_iff]
  simp only [Option.map_eq_none_iff]

/-- Where a registry has no route, none has been among the registrations that it has
come out of. -/
theorem routeAmong_eq_none {r : Registry} {es more : List Registration} {dir : Path}
    (h : ((r.registerAll es).registerAll more).routes.get? dir = none) :
    routeAmong dir es = none ∧ r.routes.get? dir = none := by
  rw [get?_registerAll, get?_registerAll, Option.or_eq_none_iff, Option.or_eq_none_iff] at h
  exact h.2

/-- Registrations that are made again either leave an answer as it is, or they settle
it. -/
theorem answer_registerAll_again {r r' : Registry} {es more : List Registration}
    (h : r' = (r.registerAll es).registerAll more) (dir : Path) :
    (r'.registerAll es).answer dir = r'.answer dir ∨
      (r.registerAll es).answer dir = (r'.registerAll es).answer dir := by
  subst h
  cases hanswer : ((r.registerAll es).registerAll more).answer dir with
  | none =>
      rw [answer_eq_none_iff] at hanswer
      refine .inl (answer_eq_none_iff.2 fun a ha => ?_)
      rw [get?_registerAll, (routeAmong_eq_none (hanswer a ha)).1, hanswer a ha, Option.or_none]
  | some found =>
      obtain ⟨near, a, far, hsplit, hcs, hroute, hnear⟩ := answer_eq_some_iff.1 hanswer
      have hnear' : ∀ b ∈ near, (((r.registerAll es).registerAll more).registerAll es).routes.get? b
          = none := fun b hb => by
        rw [get?_registerAll, (routeAmong_eq_none (hnear b hb)).1, hnear b hb, Option.or_none]
      cases hamong : routeAmong a es with
      | none =>
          -- the nearest directory is none of theirs
          refine .inl (answer_eq_some_iff.2 ⟨near, a, far, hsplit, hcs, ?_, hnear'⟩)
          rw [get?_registerAll, hamong, hroute, Option.none_or]
      | some route =>
          refine .inr (Eq.trans (b := some (found.1, route)) ?_ (Eq.symm ?_))
          · refine answer_eq_some_iff.2 ⟨near, a, far, hsplit, hcs, ?_, fun b hb => ?_⟩
            · rw [get?_registerAll, hamong, Option.some_or]
            · have hb := routeAmong_eq_none (hnear b hb)
              rw [get?_registerAll, hb.1, hb.2, Option.or_none]
          · refine answer_eq_some_iff.2 ⟨near, a, far, hsplit, hcs, ?_, hnear'⟩
            rw [get?_registerAll, hamong, Option.some_or]

theorem resolveNamespace?_registerAll_again {r r' : Registry} {es more : List Registration}
    (h : r' = (r.registerAll es).registerAll more) (caller : String) :
    (r'.registerAll es).resolveNamespace? caller = r'.resolveNamespace? caller := by
  refine resolveNamespace?_congr (fun id => ?_) caller
  rw [mem_namespaces_registerAll, or_iff_left_iff_imp]
  intro hid
  rw [h, mem_namespaces_registerAll, mem_namespaces_registerAll]
  exact .inl (.inr hid)

end Registry

namespace Expansion

open Script

/-! ## The second run -/

/-- A call that the last registry of a run answers as the call was answered in the run
hears the same once more when the calls before it have been expanded again. -/
theorem heard_again {s : Surroundings} {call : MacroCall} {r r' : Registry}
    {es more : List Registration} (hr' : r' = (r.registerAll es).registerAll more)
    (h : heard s call r' = heard s call (r.registerAll es)) :
    heard s call (r'.registerAll es) = heard s call (r.registerAll es) := by
  rw [heard, heard, List.map_inj_left] at h ⊢
  intro q hq
  have hq := h q hq
  cases q with
  | route dir =>
      rcases Registry.answer_registerAll_again hr' dir with hlast | hsettled
      · have hsame : Question.answeredBy (r'.registerAll es) (.route dir) =
            Question.answeredBy r' (.route dir) :=
          Question.answeredBy_congr (q := .route dir) hlast.symm
        rw [hsame]
        exact hq
      · rw [Question.answeredBy_congr (q := .route dir) hsettled]
  | loaded caller =>
      have hsame : Question.answeredBy (r'.registerAll es) (.loaded caller) =
          Question.answeredBy r' (.loaded caller) :=
        Registry.resolveNamespace?_registerAll_again hr' caller
      rw [hsame]
      exact hq

/-- The calls that are left of a run, expanded once more after those before them have
been: they come to the same, and register the same. -/
theorem perform_mapM_again {s : Surroundings} {text : String} {r r' : Registry}
    {calls : List MacroCall} {x y : Expansion} {es : List Registration} {edits : List Edit}
    (hx : x.registry = r.registerAll es)
    (hrun : perform (calls.mapM (expandCall text)) s x = (.ok edits, y)) (hy : y.registry = r')
    (hheard : ∀ before call after edits z, calls = before ++ call :: after →
      perform (before.mapM (expandCall text)) s x = (.ok edits, z) →
      heard s call r' = heard s call z.registry) :
    ∃ more, r' = r.registerAll (es ++ more) ∧
      perform (calls.mapM (expandCall text)) s { x with registry := r'.registerAll es } =
        (.ok edits, { y with registry := r'.registerAll (es ++ more) }) := by
  induction calls generalizing x es edits with
  | nil =>
      cases hrun
      exact ⟨[], by rw [List.append_nil, ← hx, hy], by rw [List.append_nil]; rfl⟩
  | cons call calls ih =>
      obtain ⟨added, -, hadded⟩ :=
        (registers_mapM_expandCall s text (call :: calls)).grows x
      rw [hrun, hx, hy] at hadded
      -- the first call hears the same, so it comes to the same
      have hfirst := hheard [] call calls [] x rfl rfl
      rw [hx] at hfirst
      obtain ⟨result, z, new, hcall, hcall'⟩ :=
        sameStep_expandCall text call (heard_again hadded hfirst) x
      rw [← hx] at hcall
      rw [List.mapM_cons] at hrun ⊢
      cases result with
      | error e =>
          rw [perform_bind_error s x hcall] at hrun
          exact nomatch hrun
      | ok edit =>
          rw [perform_bind_ok s x hcall] at hrun
          rw [perform_bind_ok s _ hcall']
          rw [perform_bind_pure] at hrun ⊢
          rcases hrest : perform (calls.mapM (expandCall text)) s
            { z with registry := r.registerAll es |>.registerAll new } with ⟨_ | rest, last⟩
          · rw [hx, hrest] at hrun
            exact nomatch hrun
          · rw [hx, hrest] at hrun
            cases hrun
            obtain ⟨more, hr', hagain⟩ := ih (Registry.registerAll_append r es new).symm hrest
              fun before call' after edits' z' hsplit hbefore => by
                refine hheard (call :: before) call' after (edit :: edits') z' ?_ ?_
                · rw [hsplit, List.cons_append]
                · rw [List.mapM_cons, perform_bind_ok s x hcall, perform_bind_pure, hx, hbefore]
                  rfl
            refine ⟨new ++ more, by rw [← List.append_assoc, hr'], ?_⟩
            rw [Registry.registerAll_append] at hagain
            rw [hagain, List.append_assoc]
            rfl

/-- The expansion of a module before its first call. -/
def opening (s : Surroundings) (tree : Node) (r : Registry) : Expansion where
  registry := r
  scope := .ofModule (identifiers tree)
    ((imports tree).filter (!s.configuration.macroSources.isMacroImport ·))

theorem expandModule_eq_opening {s : Surroundings} {text : String} {tree : Node}
    {calls : List MacroCall}
    (h : analyze s.configuration s.file text = .ok (some (tree, calls))) (r : Registry) :
    expandModule s r text =
      let run := perform (expandCalls text (imports tree)
        ((imports tree).filter s.configuration.macroSources.isMacroImport) calls) s
        (opening s tree r)
      (run.2.registry, run.1.map some) :=
  expandModule_eq h r

/-- A module that has been expanded comes to the same once more, and leaves the
registry as it is, if the registry answers each call as the call was answered in the
run. -/
theorem expandModule_again {s : Surroundings} {r r' : Registry} {text : String}
    {m : ExpandedModule} {tree : Node} {calls : List MacroCall}
    (hcalls : analyze s.configuration s.file text = .ok (some (tree, calls)))
    (hrun : expandModule s r text = (r', .ok (some m)))
    (hheard : ∀ before call after edits x, calls = before ++ call :: after →
      perform (before.mapM (expandCall text)) s (opening s tree r) = (.ok edits, x) →
      heard s call r' = heard s call x.registry) :
    expandModule s r' text = (r', .ok (some m)) := by
  rw [expandModule_eq_opening hcalls r] at hrun
  rw [expandModule_eq_opening hcalls r']
  dsimp only at hrun ⊢
  rcases hmapped : perform (calls.mapM (expandCall text)) s (opening s tree r) with ⟨_ | edits, y⟩
  · rw [perform_expandCalls_error _ _ hmapped] at hrun
    exact nomatch hrun
  · rw [perform_expandCalls_ok _ _ hmapped] at hrun
    obtain ⟨hy, hm⟩ := Prod.mk.inj hrun
    have hstart : (opening s tree r).registry = r.registerAll [] := rfl
    obtain ⟨es, hr', hagain⟩ := perform_mapM_again hstart hmapped hy hheard
    have hstill : r'.registerAll es = y.registry := by
      rw [hr', List.nil_append, r.registerAll_again es, ← List.nil_append es, ← hr']
      exact hy.symm
    rw [List.nil_append, hstill] at hagain
    have hagain : perform (calls.mapM (expandCall text)) s (opening s tree r') = (.ok edits, y) :=
      hagain
    rw [perform_expandCalls_ok _ _ hagain]
    exact hrun

/-- A module at this place, with a pages directory that has one page. -/
def nestedModule (file : String) : Surroundings where
  tree := .dir [("pages", .dir [("index.tsx", .file ""),
    ("[1]a", .dir [("index.tsx", .file ""), ("meta.ts", .file "")])])]
  configuration := {}
  root := ⟨"/"⟩
  file := ⟨file⟩

/-- A module in the root of the pages that it loads finds the route that it was given
in place of one. -/
theorem expandModule_again_root :
    let s := nestedModule "/pages/m.ts"
    let text := "import\x7bloadRoutes as t\x7dfrom\"pages.macro\"\nt(\".\")"
    let once := expandModule s {} text
    once.2.toOption.join.isSome = true ∧ once.1.routes.get? ⟨"/pages"⟩ = some "/" ∧
      expandModule s once.1 text = once := by
  intro s text once
  have hroute : once.2.toOption.join.isSome = true ∧ once.1.routes.get? ⟨"/pages"⟩ = some "/" := by
    decide +kernel
  refine ⟨hroute.1, hroute.2, ?_⟩
  have hheard : (analyze s.configuration s.file text).toOption.join.any (fun found =>
      found.2.length == 1 &&
        found.2.all fun call => heard s call once.1 == heard s call {}) = true := by
    decide +kernel
  rcases hcalls : analyze s.configuration s.file text with e | _ | ⟨tree, calls⟩
  · rw [hcalls] at hheard
    exact nomatch hheard
  · rw [hcalls] at hheard
    exact nomatch hheard
  · rcases hresult : once.2 with e | _ | m
    · rw [hresult] at hroute
      exact nomatch hroute.1
    · rw [hresult] at hroute
      exact nomatch hroute.1
    · have honce : once = (once.1, .ok (some m)) := Prod.ext rfl hresult
      rw [hcalls] at hheard
      obtain ⟨hone, hall⟩ := Bool.and_eq_true_iff.1 hheard
      refine (expandModule_again hcalls honce fun before call after edits x hsplit hbefore => ?_).trans
        honce.symm
      have hlength := congrArg List.length hsplit
      rw [beq_iff_eq.1 hone, List.length_append, List.length_cons] at hlength
      obtain rfl : before = [] := List.length_eq_zero_iff.1 (by omega)
      cases hbefore
      have hcall : call ∈ calls := hsplit ▸ List.mem_cons_self
      exact beq_iff_eq.1 (List.all_eq_true.1 hall call hcall)

/-- The pages around a module, loaded without a base: the page of the module has the
route `/a` after one run, and `/a/a` after another. -/
theorem expandModule_moves_pages :
    let text := "import\x7bloadRoutes as t\x7dfrom\"pages.macro\"\nt(\"..\")"
    let once := expandModule (nestedModule "/pages/[1]a/m.ts") {} text
    let twice := expandModule (nestedModule "/pages/[1]a/m.ts") once.1 text
    once.2.toOption.join.isSome = true ∧ twice.2.toOption.join.isSome = true ∧
      once.1.routes.get? ⟨"/pages/[1]a"⟩ = some "/a" ∧
      twice.1.routes.get? ⟨"/pages/[1]a"⟩ = some "/a/a" := by
  decide +kernel

end Expansion

end SiteMacros
