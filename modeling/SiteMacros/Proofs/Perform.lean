import SiteMacros.Expansion.Module
import SiteMacros.Proofs.Registration

/-!
# Steps of an expansion

A step is a function from what a module's expansion has changed so far to a
result and what is changed then (`perform`). The equations at the beginning take
a step apart, and nothing later looks below them.

What is asked of a step most of all is what it registers. `Registers s es P m`
says it of the step `m` in the surroundings `s`, whatever it starts from: it adds
entries among `es` only, and if it succeeds it leaves a registry that has all of
them, with a result for which `P` holds. A step that fails may stop half-way, so
of such a step only the first is known.
-/

namespace SiteMacros.Expansion

variable {α β : Type}

/-- What a step comes to: its result, and what is changed after it. -/
def perform (m : Expand α) (s : Surroundings) (x : Expansion) :
    Except MacroError α × Expansion :=
  (m.run s).run x

/-- What comes out of two results in turn comes out of the second. -/
theorem exists_of_bind_eq_ok {ε : Type} {m : Except ε α} {f : α → Except ε β} {b : β}
    (h : m >>= f = .ok b) : ∃ a, m = .ok a ∧ f a = .ok b := by
  cases m with
  | error e => exact nomatch h
  | ok a => exact ⟨a, rfl, h⟩

/-- Steps in a row succeed if each does. -/
theorem mapM_eq_ok_iff {ε : Type} {f : α → Except ε β} {xs : List α} {ys : List β} :
    xs.mapM f = .ok ys ↔ xs.map f = ys.map .ok := by
  induction xs generalizing ys with
  | nil =>
      rw [List.mapM_nil, List.map_nil, eq_comm (a := []), List.map_eq_nil_iff]
      exact ⟨fun h => (Except.ok.inj h).symm, fun h => by rw [h]; rfl⟩
  | cons x xs ih =>
      rw [List.mapM_cons, List.map_cons]
      cases hx : f x with
      | error e =>
          refine iff_of_false (fun h => by cases h) fun h => ?_
          cases ys <;> cases h
      | ok y =>
          cases hxs : xs.mapM f with
          | error e =>
              refine iff_of_false (fun h => by cases h) fun h => ?_
              cases ys with
              | nil => cases h
              | cons y' ys =>
                  rw [ih.2 (List.cons.inj h).2] at hxs
                  cases hxs
          | ok zs =>
              cases ys with
              | nil => exact iff_of_false (fun h => by cases h) fun h => by cases h
              | cons y' ys =>
                  rw [List.map_cons, List.cons.injEq, ← ih, hxs]
                  show Except.ok (y :: zs) = _ ↔ _
                  rw [Except.ok.injEq, Except.ok.injEq, Except.ok.injEq, List.cons.injEq]

/-- Steps in a row that succeed have the results of the single steps. -/
theorem exists_of_mapM_eq_ok {ε : Type} {f : α → Except ε β} {xs : List α} {ys : List β}
    (h : xs.mapM f = .ok ys) :
    (∀ x ∈ xs, ∃ y ∈ ys, f x = .ok y) ∧ ∀ y ∈ ys, ∃ x ∈ xs, f x = .ok y := by
  have hresults := mapM_eq_ok_iff.1 h
  constructor
  · intro x hx
    obtain ⟨y, hy, heq⟩ := List.mem_map.1 (hresults ▸ List.mem_map_of_mem hx)
    exact ⟨y, hy, heq.symm⟩
  · intro y hy
    exact List.mem_map.1 (hresults ▸ List.mem_map_of_mem hy)

/-! ## One step after another -/

section
variable (s : Surroundings) (x : Expansion)

@[simp] theorem perform_pure (a : α) : perform (pure a) s x = (.ok a, x) := rfl

@[simp] theorem perform_throw (e : MacroError) :
    perform (throw e : Expand α) s x = (.error e, x) := rfl

@[simp] theorem perform_read : perform read s x = (.ok s, x) := rfl

@[simp] theorem perform_get : perform get s x = (.ok x, x) := rfl

@[simp] theorem perform_modify (f : Expansion → Expansion) :
    perform (modify f) s x = (.ok (), f x) := rfl

@[simp] theorem perform_settle (r : Except MacroError α) : perform (settle r) s x = (r, x) := by
  cases r <;> rfl

@[simp] theorem perform_emitting (m : StateM ImportScope α) :
    perform (emitting m) s x = (.ok (m.run x.scope).1, { x with scope := (m.run x.scope).2 }) :=
  rfl

theorem perform_bind (m : Expand α) (f : α → Expand β) :
    perform (m >>= f) s x =
      match perform m s x with
      | (.ok a, y) => perform (f a) s y
      | (.error e, y) => (.error e, y) := by
  have h : perform (m >>= f) s x =
      ExceptT.bindCont (fun a => f a s) (perform m s x).1 (perform m s x).2 := rfl
  rw [h]
  rcases perform m s x with ⟨_ | _, _⟩ <;> rfl

theorem perform_read_bind (f : Surroundings → Expand β) :
    perform (read >>= f) s x = perform (f s) s x := rfl

theorem perform_get_bind (f : Expansion → Expand β) :
    perform (get >>= f) s x = perform (f x) s x := rfl

theorem perform_enclosingRoute?_bind (f : Option String → Expand β) :
    perform (enclosingRoute? >>= f) s x =
      perform (f ((x.registry.enclosingRoute? s.dir).map (·.2))) s x := by
  rw [enclosingRoute?, bind_assoc, perform_get_bind, bind_assoc, perform_read_bind, pure_bind]

theorem perform_bind_ok {m : Expand α} {f : α → Expand β} {a : α} {y : Expansion}
    (h : perform m s x = (.ok a, y)) : perform (m >>= f) s x = perform (f a) s y := by
  rw [perform_bind, h]

theorem perform_bind_error {m : Expand α} {f : α → Expand β} {e : MacroError} {y : Expansion}
    (h : perform m s x = (.error e, y)) : perform (m >>= f) s x = (.error e, y) := by
  rw [perform_bind, h]

theorem perform_bind_pure (m : Expand α) (f : α → β) :
    perform (m >>= fun a => pure (f a)) s x =
      ((perform m s x).1.map f, (perform m s x).2) := by
  rw [perform_bind]
  rcases perform m s x with ⟨_ | _, _⟩ <;> rfl

end

/-- What comes out of two steps in turn comes out of the second. -/
theorem exists_of_perform_bind_ok {s : Surroundings} {m : Expand α} {f : α → Expand β} {b : β}
    {x z : Expansion} (h : perform (m >>= f) s x = (.ok b, z)) :
    ∃ a y, perform m s x = (.ok a, y) ∧ perform (f a) s y = (.ok b, z) := by
  rcases hm : perform m s x with ⟨e | a, y⟩
  · rw [perform_bind_error s x hm] at h
    exact nomatch congrArg Prod.fst h
  · rw [perform_bind_ok s x hm] at h
    exact ⟨a, y, rfl, h⟩

theorem exists_of_perform_settle_bind_ok {s : Surroundings} {result : Except MacroError α}
    {f : α → Expand β} {b : β} {x z : Expansion}
    (h : perform (settle result >>= f) s x = (.ok b, z)) :
    ∃ a, result = .ok a ∧ perform (f a) s x = (.ok b, z) := by
  cases result with
  | error e => exact nomatch congrArg Prod.fst h
  | ok a => exact ⟨a, rfl, h⟩

/-! ## What a step registers -/

/-- In the surroundings `s` the step adds entries among `es` only; if it succeeds
the registry has all of them, and `P` holds of the result. -/
structure Registers (s : Surroundings) (es : List Entry) (P : α → Prop) (m : Expand α) :
    Prop where
  grows (x : Expansion) : x.registry.Grows es (perform m s x).2.registry
  has {x y : Expansion} {a : α} (h : perform m s x = (.ok a, y)) :
    ∀ q ∈ es, y.registry.has q = true
  result {x y : Expansion} {a : α} (h : perform m s x = (.ok a, y)) : P a

namespace Registers

variable {s : Surroundings} {es fs : List Entry} {P : α → Prop} {Q : β → Prop}

/-- A step that leaves the registry alone. -/
theorem of_still {m : Expand α} (hstill : ∀ x, (perform m s x).2.registry = x.registry)
    (hresult : ∀ x y a, perform m s x = (.ok a, y) → P a) : Registers s [] P m where
  grows x := by
    rw [hstill]
    exact .refl _ _
  has _ q hq := absurd hq List.not_mem_nil
  result h := hresult _ _ _ h

theorem pure {a : α} (h : P a) : Registers s [] P (Pure.pure a) :=
  of_still (fun _ => rfl) (by
    intro x y b hb
    cases hb
    exact h)

theorem read : Registers s [] (s = ·) read :=
  of_still (fun _ => rfl) (by
    intro x y b hb
    cases hb
    rfl)

theorem get : Registers s [] (fun _ => True) get :=
  of_still (fun _ => rfl) (fun _ _ _ _ => trivial)

theorem settle (r : Except MacroError α) : Registers s [] (fun a => r = .ok a) (settle r) :=
  of_still (fun x => by rw [perform_settle]) (by
    intro x y a h
    rw [perform_settle] at h
    exact congrArg Prod.fst h)

/-- A failing step may be said to register anything. -/
theorem throw (e : MacroError) : Registers s es P (throw e) where
  grows _ := .refl _ _
  has h := nomatch h
  result h := nomatch h

theorem depend (f : Dependencies → Dependencies) : Registers s [] (fun _ => True) (depend f) :=
  of_still (fun _ => rfl) (fun _ _ _ _ => trivial)

theorem watch (dir : Path) : Registers s [] (fun _ => True) (watch dir) :=
  depend _

theorem emitting (m : StateM ImportScope α) : Registers s [] (fun _ => True) (emitting m) :=
  of_still (fun _ => rfl) (fun _ _ _ _ => trivial)

/-- A change of the registry that amounts to registrations. -/
theorem onRegistry {f : Registry → Registry} (added : List Registration)
    (hf : ∀ r, f r = r.registerAll added) :
    Registers s (added.map (·.entry)) (fun _ => True) (onRegistry f) where
  grows x := ⟨added, fun e he => List.mem_map_of_mem he, hf x.registry⟩
  has {x y _} h q hq := by
    cases h
    obtain ⟨e, he, rfl⟩ := List.mem_map.1 hq
    have hany : (added.any fun e' => e'.entry == e.entry) = true :=
      List.any_eq_true.2 ⟨e, he, BEq.rfl⟩
    show (f x.registry).has e.entry = true
    rw [hf, Registry.has_registerAll, hany, Bool.or_true]
  result _ := trivial

theorem bind {m : Expand α} {f : α → Expand β} (hm : Registers s es P m)
    (hf : ∀ a, P a → Registers s fs Q (f a)) : Registers s (es ++ fs) Q (m >>= f) where
  grows x := by
    have hgrows := hm.grows x
    rcases hrun : perform m s x with ⟨e | a, y⟩
    · rw [perform_bind_error s x hrun]
      rw [hrun] at hgrows
      exact hgrows.mono fun q hq => List.mem_append_left _ hq
    · rw [perform_bind_ok s x hrun]
      rw [hrun] at hgrows
      exact .trans (hgrows.mono fun q hq => List.mem_append_left _ hq)
        (((hf a (hm.result hrun)).grows y).mono fun q hq => List.mem_append_right _ hq)
  has {x z b} h q hq := by
    rcases hrun : perform m s x with ⟨e | a, y⟩
    · rw [perform_bind_error s x hrun] at h
      exact nomatch h
    · rw [perform_bind_ok s x hrun] at h
      have hfa := hf a (hm.result hrun)
      rcases List.mem_append.1 hq with hq | hq
      · have hgrows := hfa.grows y
        rw [h] at hgrows
        exact hgrows.has_of_has (hm.has hrun q hq)
      · exact hfa.has h q hq
  result {x z b} h := by
    rcases hrun : perform m s x with ⟨e | a, y⟩
    · rw [perform_bind_error s x hrun] at h
      exact nomatch h
    · rw [perform_bind_ok s x hrun] at h
      exact (hf a (hm.result hrun)).result h

/-- The same entries in another list, and less said of the result. -/
theorem mono {P' : α → Prop} {m : Expand α} (hm : Registers s es P m)
    (hmem : ∀ q, q ∈ es ↔ q ∈ fs) (hP : ∀ a, P a → P' a) : Registers s fs P' m where
  grows x := (hm.grows x).mono fun q hq => (hmem q).1 hq
  has h q hq := hm.has h q ((hmem q).2 hq)
  result h := hP _ (hm.result h)

/-- A step that registers nothing, and then another. -/
theorem still_bind {m : Expand α} {f : α → Expand β} (hm : Registers s [] P m)
    (hf : ∀ a, P a → Registers s fs Q (f a)) : Registers s fs Q (m >>= f) :=
  bind hm hf

/-- A step, and then another that registers nothing. -/
theorem bind_still {m : Expand α} {f : α → Expand β} (hm : Registers s es P m)
    (hf : ∀ a, P a → Registers s [] Q (f a)) : Registers s es Q (m >>= f) := by
  have h := bind hm hf
  rwa [List.append_nil] at h

theorem forM {γ : Type} {f : γ → Expand Unit} {entries : γ → List Entry} (xs : List γ)
    (hf : ∀ c ∈ xs, Registers s (entries c) (fun _ => True) (f c)) :
    Registers s (xs.flatMap entries) (fun _ => True) (xs.forM f) := by
  induction xs with
  | nil => exact pure trivial
  | cons c xs ih =>
      rw [List.forM, List.flatMap_cons]
      refine bind (hf c List.mem_cons_self) fun _ _ => ?_
      exact ih fun d hd => hf d (List.mem_cons_of_mem c hd)

end Registers

end SiteMacros.Expansion
