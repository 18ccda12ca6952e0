import Mathlib.Data.Set.Card
import SiteMacros.Proofs.Owners
import SiteMacros.Proofs.Plans

/-!
# What a registry remembers

Routes and namespaces are registered while modules are expanded, and the routes below
a directory are pruned when it is gone. After any number of that, a registry is settled
by its history alone: a route stands if it is the last one that was registered for its
directory and nothing at or around the directory has been pruned since, and a namespace
stays for good.

Pruning and looking up mean different things by `below`. Pruning goes by components,
and looking up by the paths around a directory. The two differ at one path, the empty
one. It is a beginning of every path, but an absolute path has the root around it and
nothing else. So pruning the empty path removes all routes, and a route for the empty
path is found from relative paths only (`run_empty_directory`). Apart from that the
answer of a lookup is the deepest directory around whose route stands
(`run_last_writer`).
-/

namespace SiteMacros

namespace Registry

/-- What is done to a registry. -/
inductive Action where
  | register (e : Registration)
  | prune (dir : Path)
  deriving DecidableEq, Repr

def act (r : Registry) : Action → Registry
  | .register e => r.register e
  | .prune dir => r.pruneUnder dir

/-- The registry after a history that starts with nothing. -/
def after (history : List Action) : Registry :=
  history.foldl act {}

/-- The action neither registers the directory nor prunes it. -/
def Action.Spares (dir : Path) : Action → Prop
  | .register (.route other _) => other.components ≠ dir.components
  | .register (.loaded _) => True
  | .prune p => dir.startsWith p = false

/-- The route was registered for the directory, and the directory has been spared
since. -/
def Stands (history : List Action) (dir : Path) (route : String) : Prop :=
  ∃ before dir' later, history = before ++ .register (.route dir' route) :: later ∧
    dir'.components = dir.components ∧ ∀ a ∈ later, a.Spares dir

theorem after_concat (history : List Action) (a : Action) :
    after (history ++ [a]) = (after history).act a := by
  rw [after, List.foldl_append]
  rfl

/-! ## One action -/

theorem get?_act {r : Registry} {a : Action} {dir : Path} {route : String} :
    (r.act a).routes.get? dir = some route ↔
      (∃ dir', a = .register (.route dir' route) ∧ dir'.components = dir.components) ∨
        a.Spares dir ∧ r.routes.get? dir = some route := by
  match a with
  | .register (.route other value) =>
      rw [act, register, registerRoute, PathMap.get?_insert, Action.Spares]
      split
      · next h => simp [h]
      · next h => simp [Ne.symm h]
  | .register (.loaded id) =>
      have hroutes : (r.act (.register (.loaded id))).routes = r.routes := by
        rw [act, register, registerNamespace]
        split <;> rfl
      simp [hroutes, Action.Spares]
  | .prune p =>
      rw [act, pruneUnder, PathMap.get?_eraseUnder, Action.Spares]
      split
      · next h => simp [h]
      · next h => simp [h]

theorem stands_concat {history : List Action} {a : Action} {dir : Path} {route : String} :
    Stands (history ++ [a]) dir route ↔
      (∃ dir', a = .register (.route dir' route) ∧ dir'.components = dir.components) ∨
        a.Spares dir ∧ Stands history dir route := by
  constructor
  · rintro ⟨before, dir', later, hsplit, hsame, hspared⟩
    rcases List.eq_nil_or_concat later with rfl | ⟨later, b, rfl⟩
    · obtain ⟨-, hlast⟩ := List.append_inj' hsplit rfl
      exact .inl ⟨dir', (List.cons.inj hlast).1, hsame⟩
    · rw [List.concat_eq_append] at hsplit hspared
      rw [← List.cons_append, ← List.append_assoc] at hsplit
      obtain ⟨hbefore, hlast⟩ := List.append_inj' hsplit rfl
      rw [(List.cons.inj hlast).1]
      exact .inr ⟨hspared b (List.mem_append_right _ List.mem_cons_self), before, dir', later,
        hbefore, hsame, fun c hc => hspared c (List.mem_append_left _ hc)⟩
  · rintro (⟨dir', rfl, hsame⟩ | ⟨ha, before, dir', later, rfl, hsame, hspared⟩)
    · exact ⟨history, dir', [], rfl, hsame, fun b hb => absurd hb List.not_mem_nil⟩
    · refine ⟨before, dir', later ++ [a], by simp, hsame, fun b hb => ?_⟩
      rcases List.mem_append.1 hb with hb | hb
      · exact hspared b hb
      · exact List.mem_singleton.1 hb ▸ ha

/-! ## A whole history -/

/-- What a registry has after a history is what stands. -/
theorem get?_after {history : List Action} {dir : Path} {route : String} :
    (after history).routes.get? dir = some route ↔ Stands history dir route := by
  induction history using List.reverseRecOn with
  | nil =>
      refine iff_of_false (fun h => nomatch h) ?_
      rintro ⟨before, dir', later, h, -⟩
      exact absurd h.symm (List.append_ne_nil_of_right_ne_nil _ (List.cons_ne_nil _ _))
  | append_singleton history a ih => rw [after_concat, get?_act, stands_concat, ih]

theorem mem_namespaces_after {history : List Action} {id : String} :
    id ∈ (after history).namespaces ↔ .register (.loaded id) ∈ history := by
  induction history using List.reverseRecOn with
  | nil => exact iff_of_false List.not_mem_nil List.not_mem_nil
  | append_singleton history a ih =>
      rw [after_concat, List.mem_append, List.mem_singleton, ← ih]
      match a with
      | .register (.route dir route) => simp [act, register, registerRoute]
      | .prune p => simp [act, pruneUnder]
      | .register (.loaded other) =>
          rw [act, register, registerNamespace]
          split
          · next hmem =>
              simp only [Action.register.injEq, Registration.loaded.injEq, iff_self_or]
              rintro rfl
              exact hmem
          · simp [or_comm]

theorem get?_eq_some_iff_exists_entry {r : Registry} {dir : Path} {route : String} :
    r.routes.get? dir = some route ↔
      ∃ e ∈ r.routes.entries, e.1.components = dir.components ∧ e.2 = route := by
  rw [PathMap.get?, Option.map_eq_some_iff]
  constructor
  · rintro ⟨e, he, rfl⟩
    exact ⟨e, List.mem_of_find?_eq_some he, PathMap.components_of_entryAt? he, rfl⟩
  · rintro ⟨e, he, hsame, rfl⟩
    exact ⟨e, by rw [← PathMap.entryAt?_congr _ hsame, PathMap.mem_entries_iff.1 he], rfl⟩

theorem stands_of_mem {history : List Action} {e : Path × String}
    (h : e ∈ (after history).routes.entries) : Stands history e.1 e.2 :=
  get?_after.1 (get?_eq_some_iff_exists_entry.2 ⟨e, h, rfl, rfl⟩)

theorem exists_entry_of_stands {history : List Action} {dir : Path} {route : String}
    (h : Stands history dir route) :
    ∃ e ∈ (after history).routes.entries, e.1.components = dir.components ∧ e.2 = route :=
  get?_eq_some_iff_exists_entry.1 (get?_after.2 h)

theorem isAround_congr {k l dir : Path} (h : k.components = l.components) :
    k.IsAround dir ↔ l.IsAround dir := by
  rw [Path.isAround_iff, Path.isAround_iff, h]

/-- The nearest route is that of the deepest directory around whose route stands. -/
theorem enclosingRoute?_after {history : List Action} {dir : Path} :
    (∀ e, (after history).enclosingRoute? dir = some e →
      e.1.IsAround dir ∧ Stands history e.1 e.2 ∧
        ∀ k route, k.IsAround dir → Stands history k route →
          k.components.length ≤ e.1.components.length) ∧
    ((after history).enclosingRoute? dir = none ↔
      ∀ k route, k.IsAround dir → ¬ Stands history k route) := by
  refine ⟨fun e h => ?_, ?_⟩
  · obtain ⟨he, haround, hdeepest⟩ := enclosingRoute?_eq_some_iff.1 h
    refine ⟨haround, stands_of_mem he, fun k route hk hstands => ?_⟩
    obtain ⟨f, hf, hsame, -⟩ := exists_entry_of_stands hstands
    exact hsame ▸ hdeepest f hf ((isAround_congr hsame).2 hk)
  · rw [enclosingRoute?_eq_none_iff]
    constructor
    · intro h k route hk hstands
      obtain ⟨f, hf, hsame, -⟩ := exists_entry_of_stands hstands
      exact h f hf ((isAround_congr hsame).2 hk)
    · exact fun h f hf haround => h f.1 f.2 haround (stands_of_mem hf)

/-- No directory is in a table twice, so entries can be counted by directories. -/
theorem length_filter_entries (m : PathMap String) (p : Path × String → Bool) :
    (m.entries.filter p).length =
      Set.ncard {cs | ∃ e ∈ m.entries, p e = true ∧ e.1.components = cs} := by
  have hnodup : ((m.entries.filter p).map (·.1.components)).Nodup := by
    have hkeys : (m.keys.map Path.components).Nodup := List.pairwise_map.2 m.keys_distinct
    rw [PathMap.keys, List.map_map] at hkeys
    exact hkeys.sublist (List.filter_sublist.map _)
  rw [← List.length_map (·.1.components), ← List.toFinset_card_of_nodup hnodup,
    ← Set.ncard_coe_finset]
  congr 1
  ext cs
  simp [and_assoc]

theorem length_entries_after {history : List Action} {p : Path → Bool}
    (hp : ∀ k l : Path, k.components = l.components → p k = p l) :
    ((after history).routes.entries.filter fun e => p e.1).length =
      Set.ncard {cs | ∃ k route, Stands history k route ∧ p k = true ∧ k.components = cs} := by
  rw [length_filter_entries]
  congr 1
  ext cs
  constructor
  · rintro ⟨e, he, hpe, rfl⟩
    exact ⟨e.1, e.2, stands_of_mem he, hpe, rfl⟩
  · rintro ⟨k, route, hstands, hpk, rfl⟩
    obtain ⟨e, he, hsame, -⟩ := exists_entry_of_stands hstands
    exact ⟨e, he, by rw [hp e.1 k hsame, hpk], hsame⟩

/-- The entries of a registry are the directories with a route that stands, and the
namespaces that have ever been registered. -/
theorem size_after (history : List Action) :
    (after history).size =
      Set.ncard {cs | ∃ k route, Stands history k route ∧ k.components = cs} +
        Set.ncard {id | .register (.loaded id) ∈ history} := by
  have hroutes : (after history).routes.size =
      Set.ncard {cs | ∃ k route, Stands history k route ∧ k.components = cs} := by
    have h := @length_entries_after history (fun _ => true) fun _ _ _ => rfl
    rw [List.filter_true] at h
    rw [PathMap.size, h]
    simp only [true_and]
  have hloaded : (after history).namespaces.length =
      Set.ncard {id | .register (.loaded id) ∈ history} := by
    rw [← List.toFinset_card_of_nodup (after history).distinct, ← Set.ncard_coe_finset]
    congr 1
    ext id
    simp [mem_namespaces_after]
  rw [size, hroutes, hloaded]

/-- Pruning removes the routes at and below a directory and nothing else. -/
theorem pruned_after (history : List Action) (p : Path) :
    (∀ k, (after (history ++ [.prune p])).routes.get? k =
      if k.startsWith p then none else (after history).routes.get? k) ∧
    (after (history ++ [.prune p])).namespaces = (after history).namespaces ∧
    (after history).size = (after (history ++ [.prune p])).size +
      Set.ncard {cs | ∃ k route, Stands history k route ∧ k.startsWith p = true ∧
        k.components = cs} := by
  rw [after_concat]
  refine ⟨fun k => PathMap.get?_eraseUnder _ p k, rfl, ?_⟩
  have hcount := @length_entries_after history (fun k => k.startsWith p)
    fun k l hsame => by rw [Path.startsWith, Path.startsWith, hsame]
  have hsplit := List.length_eq_length_filter_add (l := (after history).routes.entries)
    fun e => e.1.startsWith p
  rw [hcount] at hsplit
  simp only [act, pruneUnder, size, PathMap.size, PathMap.eraseUnder]
  omega

/-- A caller's namespace only ever gets longer. -/
theorem resolveNamespace?_after_append {earlier later : List Action} {caller id : String}
    (h : (after earlier).resolveNamespace? caller = some id) :
    ∃ id', (after (earlier ++ later)).resolveNamespace? caller = some id' ∧
      id.toList <+: id'.toList := by
  obtain ⟨hid, hencloses, -⟩ := resolveNamespace?_eq_some_iff.1 h
  have hid' : id ∈ (after (earlier ++ later)).namespaces :=
    mem_namespaces_after.2 (List.mem_append_left _ (mem_namespaces_after.1 hid))
  obtain ⟨id', hfound⟩ := Option.isSome_iff_exists.1
    ((resolveNamespace?_isSome _ caller).2 ⟨id, List.contains_iff_mem.2 hid', hencloses⟩)
  obtain ⟨-, hencloses', hlongest⟩ := resolveNamespace?_eq_some_iff.1 hfound
  refine ⟨id', hfound, ?_⟩
  rcases List.prefix_or_prefix_of_prefix (prefix_of_encloses hencloses)
    (prefix_of_encloses hencloses') with hle | hge
  · exact hle
  · have hsize := Nat.le_antisymm (hlongest id hid' hencloses) (size_le_of_isPrefix_toList hge)
    rw [eq_of_encloses hencloses hencloses' hsize]

/-- A registry is the map of what was written last. A lookup gives the deepest of the
paths around a directory whose route stands; pruning removes what is at or below a path
and counts it; what is left over is counted by its size; and namespaces that are found
only get longer. -/
theorem after_last_writer (history : List Action) :
    (∀ dir e, (after history).enclosingRoute? dir = some e →
      e.1.IsAround dir ∧ Stands history e.1 e.2 ∧
        ∀ k route, k.IsAround dir → Stands history k route →
          k.components.length ≤ e.1.components.length) ∧
    (∀ dir, (after history).enclosingRoute? dir = none ↔
      ∀ k route, k.IsAround dir → ¬ Stands history k route) ∧
    (∀ p, (∀ k, (after (history ++ [.prune p])).routes.get? k =
        if k.startsWith p then none else (after history).routes.get? k) ∧
      (after (history ++ [.prune p])).namespaces = (after history).namespaces ∧
      (after history).size = (after (history ++ [.prune p])).size +
        Set.ncard {cs | ∃ k route, Stands history k route ∧ k.startsWith p = true ∧
          k.components = cs}) ∧
    (after history).size =
      Set.ncard {cs | ∃ k route, Stands history k route ∧ k.components = cs} +
        Set.ncard {id | .register (.loaded id) ∈ history} ∧
    ∀ later caller id, (after history).resolveNamespace? caller = some id →
      ∃ id', (after (history ++ later)).resolveNamespace? caller = some id' ∧
        id.toList <+: id'.toList :=
  ⟨fun _ => enclosingRoute?_after.1, fun _ => enclosingRoute?_after.2, pruned_after history,
    size_after history, fun _ _ _ => resolveNamespace?_after_append⟩

/-- The empty path is a beginning of all paths but not on the way up from an absolute
one. A route for it stands and is not found, and pruning it takes away the route of a
directory that it is not around. -/
theorem after_empty_directory :
    let history : List Action := [.register (.route ⟨""⟩ "/x")]
    let pruned : List Action := [.register (.route ⟨"/a"⟩ "/x"), .prune ⟨""⟩]
    Stands history ⟨""⟩ "/x" ∧ (Path.mk "").components <+: (Path.mk "/a").components ∧
      (after history).enclosingRoute? ⟨"/a"⟩ = none ∧
      (∀ k ∈ (Path.mk "/a").ancestors, k.components ≠ (Path.mk "").components) ∧
      (after pruned).enclosingRoute? ⟨"/a"⟩ = none := by
  intro history pruned
  refine ⟨⟨[], _, [], rfl, rfl, fun a ha => absurd ha List.not_mem_nil⟩, ?_, ?_, ?_, ?_⟩
  · exact List.nil_prefix
  · decide
  · decide
  · decide

end Registry

end SiteMacros
