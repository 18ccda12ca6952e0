import SiteMacros.Registry

/-!
# What registering does to a registry

A registry only ever grows while modules are expanded: each call adds routes and
namespaces, or gives a new route to a directory that had one. What a registry
*has* is a set of entries, and that set is what decides whether a question is
answered at all; which route or namespace the answer is depends on more.

An entry makes the registry larger by one if it is new and leaves its size alone
if it is not (`size_register`). So a registry that has grown out of another and
has its size has the same entries (`Grows.has_eq_of_size_eq`): comparing two
numbers is as good as comparing the sets, and a question that one of the two
registries leaves open the other leaves open too.
-/

namespace SiteMacros

/-- What a registry can have: a route for a directory, in whatever spelling, or a
loaded namespace. -/
inductive Entry where
  | route (dir : List Component)
  | loaded (id : String)
  deriving DecidableEq, Repr

/-- What a module makes known. -/
inductive Registration where
  | route (dir : Path) (route : String)
  | loaded (id : String)
  deriving DecidableEq, Repr

/-- The entry that a registration leaves. -/
def Registration.entry : Registration → Entry
  | .route dir _ => .route dir.components
  | .loaded id => .loaded id

namespace Registry

/-- Does a registry have an entry? -/
def has (r : Registry) : Entry → Bool
  | .route dir => r.routes.entries.any fun e => e.1.components == dir
  | .loaded id => r.namespaces.contains id

/-- The registry after a registration. -/
def register (r : Registry) : Registration → Registry
  | .route dir route => r.registerRoute dir route
  | .loaded id => r.registerNamespace id

/-- The registry after registrations, the first of them first. -/
def registerAll (r : Registry) (es : List Registration) : Registry :=
  es.foldl register r

/-! ## One registration -/

theorem has_route (r : Registry) (dir : Path) :
    r.has (.route dir.components) = r.routes.contains dir :=
  List.isSome_find?.symm

theorem has_registerRoute_route (r : Registry) (dir : Path) (route : String)
    (cs : List Component) :
    (r.registerRoute dir route).has (.route cs) =
      (r.has (.route cs) || dir.components == cs) := by
  have hany : ∀ es : List (Path × String),
      (PathMap.insertEntry dir route es).any (fun e => e.1.components == cs) =
        (es.any (fun e => e.1.components == cs) || dir.components == cs) := by
    intro es
    induction es with
    | nil => simp [PathMap.insertEntry]
    | cons e es ih =>
        obtain ⟨k, v⟩ := e
        rw [PathMap.insertEntry]
        split
        · rw [List.any_cons, Bool.or_comm]
        · next heq =>
            rw [List.any_cons, List.any_cons, Path.compare_eq_iff.1 heq]
            cases k.components == cs <;> simp
        · rw [List.any_cons, List.any_cons, ih, Bool.or_assoc]
  exact hany r.routes.entries

theorem has_register (r : Registry) (e : Registration) (q : Entry) :
    (r.register e).has q = (r.has q || e.entry == q) := by
  cases e with
  | route dir route =>
      cases q with
      | route cs =>
          have h : (Entry.route dir.components == .route cs) = (dir.components == cs) := by
            rw [Bool.eq_iff_iff, beq_iff_eq, beq_iff_eq, Entry.route.injEq]
          rw [register, has_registerRoute_route, Registration.entry, h]
      | loaded id =>
          have h : (Entry.route dir.components == .loaded id) = false :=
            beq_eq_false_iff_ne.2 Entry.noConfusion
          rw [Registration.entry, h, Bool.or_false]
          rfl
  | loaded id =>
      cases q with
      | route cs =>
          have h : (Entry.loaded id == .route cs) = false :=
            beq_eq_false_iff_ne.2 Entry.noConfusion
          rw [Registration.entry, h, Bool.or_false, register, registerNamespace]
          split <;> rfl
      | loaded other =>
          have h : (Entry.loaded id == .loaded other) = (id == other) := by
            rw [Bool.eq_iff_iff, beq_iff_eq, beq_iff_eq, Entry.loaded.injEq]
          rw [Registration.entry, h, register, registerNamespace]
          split
          · next hid =>
              by_cases ho : id = other
              · subst ho
                simp [has, hid]
              · simp [ho]
          · simp only [has, List.contains_cons]
            rw [Bool.or_comm, Bool.beq_comm]

theorem size_register (r : Registry) (e : Registration) :
    (r.register e).size = r.size + if r.has e.entry then 0 else 1 := by
  cases e with
  | route dir route =>
      have h := r.routes.size_insert dir route
      simp only [register, registerRoute, size, Registration.entry, has_route]
      omega
  | loaded id =>
      simp only [register, registerNamespace, Registration.entry, has, List.contains_iff_mem]
      split
      · rfl
      · simp only [size, List.length_cons]
        omega

/-! ## Many registrations -/

theorem registerAll_cons (r : Registry) (e : Registration) (es : List Registration) :
    r.registerAll (e :: es) = (r.register e).registerAll es :=
  List.foldl_cons ..

theorem registerAll_append (r : Registry) (es fs : List Registration) :
    r.registerAll (es ++ fs) = (r.registerAll es).registerAll fs :=
  List.foldl_append

theorem has_registerAll (r : Registry) (es : List Registration) (q : Entry) :
    (r.registerAll es).has q = (r.has q || es.any fun e => e.entry == q) := by
  induction es generalizing r with
  | nil => simp [registerAll]
  | cons e es ih =>
      rw [registerAll_cons, ih, has_register, List.any_cons, Bool.or_assoc]

theorem size_le_registerAll (r : Registry) (es : List Registration) :
    r.size ≤ (r.registerAll es).size := by
  induction es generalizing r with
  | nil => exact Nat.le_refl _
  | cons e es ih =>
      have h := ih (r.register e)
      rw [size_register] at h
      rw [registerAll_cons]
      omega

/-- `r'` has come out of `r` by registering entries among `es`. -/
def Grows (es : List Entry) (r r' : Registry) : Prop :=
  ∃ added : List Registration, (∀ e ∈ added, e.entry ∈ es) ∧ r' = r.registerAll added

namespace Grows

variable {es fs : List Entry} {r r' r'' : Registry}

theorem refl (es : List Entry) (r : Registry) : Grows es r r :=
  ⟨[], by simp, rfl⟩

theorem mono (hsub : ∀ q ∈ es, q ∈ fs) (h : Grows es r r') : Grows fs r r' := by
  obtain ⟨added, hadded, rfl⟩ := h
  exact ⟨added, fun e he => hsub _ (hadded e he), rfl⟩

theorem trans (h : Grows es r r') (h' : Grows es r' r'') : Grows es r r'' := by
  obtain ⟨added, hadded, rfl⟩ := h
  obtain ⟨more, hmore, rfl⟩ := h'
  refine ⟨added ++ more, fun e he => ?_, (registerAll_append r added more).symm⟩
  rcases List.mem_append.1 he with he | he
  · exact hadded e he
  · exact hmore e he

theorem has_of_has (h : Grows es r r') {q : Entry} (hq : r.has q = true) : r'.has q = true := by
  obtain ⟨added, -, rfl⟩ := h
  rw [has_registerAll, hq, Bool.true_or]

/-- What a registry has that it had not before is among what could be added. -/
theorem mem_of_has (h : Grows es r r') {q : Entry} (hnew : r.has q = false)
    (hq : r'.has q = true) : q ∈ es := by
  obtain ⟨added, hadded, rfl⟩ := h
  rw [has_registerAll, hnew, Bool.false_or, List.any_eq_true] at hq
  obtain ⟨e, he, heq⟩ := hq
  exact beq_iff_eq.1 heq ▸ hadded e he

theorem size_le (h : Grows es r r') : r.size ≤ r'.size := by
  obtain ⟨added, -, rfl⟩ := h
  exact size_le_registerAll r added

/-- A registry that has grown to the size it had has the entries it had. -/
theorem has_eq_of_size_eq (h : Grows es r r') (hsize : r'.size = r.size) (q : Entry) :
    r'.has q = r.has q := by
  obtain ⟨added, -, rfl⟩ := h
  induction added generalizing r with
  | nil => rfl
  | cons e added ih =>
      rw [registerAll_cons] at hsize ⊢
      have hle := size_le_registerAll (r.register e) added
      have hreg := size_register r e
      by_cases hhas : r.has e.entry = true
      · rw [if_pos hhas] at hreg
        rw [ih (hsize.trans hreg.symm), has_register]
        by_cases heq : e.entry = q
        · simp [← heq, hhas]
        · simp [heq]
      · rw [if_neg hhas] at hreg
        omega

/-- A registry that has got larger has an entry that it had not. -/
theorem exists_new_of_size_lt (h : Grows es r r') (hsize : r.size < r'.size) :
    ∃ q, r.has q = false ∧ r'.has q = true := by
  obtain ⟨added, -, rfl⟩ := h
  induction added generalizing r with
  | nil =>
      rw [registerAll, List.foldl_nil] at hsize
      omega
  | cons e added ih =>
      rw [registerAll_cons] at hsize ⊢
      by_cases hhas : r.has e.entry = true
      · have hreg := size_register r e
        rw [if_pos hhas] at hreg
        obtain ⟨q, hq, hq'⟩ := ih (r := r.register e) (by omega)
        rw [has_register, Bool.or_eq_false_iff] at hq
        exact ⟨q, hq.1, hq'⟩
      · refine ⟨e.entry, Bool.eq_false_iff.2 hhas, ?_⟩
        rw [has_registerAll, has_register, BEq.rfl, Bool.or_true, Bool.true_or]

end Grows

/-! ## Questions that are answered -/

theorem enclosingRoute?_isSome (r : Registry) (dir : Path) :
    (r.enclosingRoute? dir).isSome = dir.ancestors.any fun p => r.has (.route p.components) := by
  rw [enclosingRoute?, List.isSome_findSome?]
  congr 1
  funext p
  exact (has_route r p).symm

theorem foldl_longer_isSome (ids : List String) (best : Option String) :
    (ids.foldl resolveNamespace?.longer best).isSome = (best.isSome || !ids.isEmpty) := by
  induction ids generalizing best with
  | nil => simp
  | cons id ids ih =>
      rw [List.foldl_cons, ih]
      cases best with
      | none => rfl
      | some best =>
          rw [resolveNamespace?.longer]
          split <;> rfl

theorem resolveNamespace?_isSome (r : Registry) (caller : String) :
    (r.resolveNamespace? caller).isSome = true ↔
      ∃ id, r.has (.loaded id) = true ∧ encloses caller id = true := by
  rw [resolveNamespace?, foldl_longer_isSome, Option.isSome_none, Bool.false_or,
    Bool.not_eq_true', List.isEmpty_eq_false_iff_exists_mem]
  simp only [List.mem_filter, has, List.contains_iff_mem]

/-- Registries with the same entries answer for the same directories. -/
theorem enclosingRoute?_isSome_congr {r r' : Registry} (h : ∀ q, r'.has q = r.has q)
    (dir : Path) : (r'.enclosingRoute? dir).isSome = (r.enclosingRoute? dir).isSome := by
  rw [enclosingRoute?_isSome, enclosingRoute?_isSome]
  congr 1
  funext p
  exact h _

/-- Registries with the same entries answer for the same namespaces. -/
theorem resolveNamespace?_isSome_congr {r r' : Registry} (h : ∀ q, r'.has q = r.has q)
    (caller : String) :
    (r'.resolveNamespace? caller).isSome = (r.resolveNamespace? caller).isSome := by
  rw [Bool.eq_iff_iff, resolveNamespace?_isSome, resolveNamespace?_isSome]
  simp only [h]

end Registry

end SiteMacros
