import SiteMacros.Proofs.Ancestors
import SiteMacros.Proofs.Registration

/-!
# Answers of a registry

A registry answers two questions: which is the nearest directory with a route,
and which is the longest namespace. Registering something changes an answer in a
way that depends on the answer and on nothing else of the registry
(`answer_registerRoute_congr`, `resolveNamespace?_registerNamespace`). So two
registries that answer a question alike go on to do so while the same things are
registered with both, however different they are otherwise.

For routes it matters that the answer names the directory: whether a new route is
nearer than the one so far cannot be told from the route alone.
-/

namespace SiteMacros

namespace PathMap

theorem get?_insert {α : Type} (m : PathMap α) (k q : Path) (v : α) :
    (m.insert k v).get? q = if q.components = k.components then some v else m.get? q := by
  split
  · next h => rw [get?, entryAt?_insert_of_same m h.symm v, Option.map_some]
  · next h => rw [get?, entryAt?_insert_of_ne m (fun heq => h heq.symm) v, get?]

/-- What is filtered out by path is not found, and all else is found as before. -/
theorem find?_filter_same {α : Type} (es : List (Path × α)) {gone : Path → Bool}
    (hgone : ∀ k l : Path, k.components = l.components → gone k = gone l) (q : Path) :
    ((es.filter fun e => !gone e.1).find? fun e => e.1.same q) =
      if gone q then none else es.find? fun e => e.1.same q := by
  rw [List.find?_filter]
  split
  · next h =>
      refine List.find?_eq_none.2 fun e _ he => ?_
      rw [decide_eq_true_eq, Bool.not_eq_true', Path.same_iff] at he
      rw [hgone e.1 q he.2, h] at he
      exact nomatch he.1
  · next h =>
      congr 1
      funext e
      cases he : e.1.same q with
      | false => simp
      | true => simp [hgone e.1 q (Path.same_iff.1 he), h]

theorem get?_erase {α : Type} (m : PathMap α) (p q : Path) :
    (m.erase p).get? q = if q.components = p.components then none else m.get? q := by
  have h := @find?_filter_same _ m.entries (fun k => k.same p)
    (fun k l hkl => by rw [Path.same, Path.same, hkl]) q
  rw [get?, entryAt?, erase, h]
  by_cases hq : q.components = p.components
  · rw [if_pos hq, if_pos (Path.same_iff.2 hq)]
    rfl
  · rw [if_neg hq, if_neg fun hsame => hq (Path.same_iff.1 hsame)]
    rfl

theorem get?_eraseUnder {α : Type} (m : PathMap α) (p q : Path) :
    (m.eraseUnder p).get? q = if q.startsWith p then none else m.get? q := by
  have h := @find?_filter_same _ m.entries (fun k => k.startsWith p)
    (fun k l hkl => by rw [Path.startsWith, Path.startsWith, hkl]) q
  rw [get?, entryAt?, eraseUnder, h]
  split <;> rfl

theorem entryAt?_congr {α : Type} (m : PathMap α) {p q : Path} (h : p.components = q.components) :
    m.entryAt? p = m.entryAt? q := by
  simp only [entryAt?, Path.same, h]

theorem get?_congr {α : Type} (m : PathMap α) {p q : Path} (h : p.components = q.components) :
    m.get? p = m.get? q := by
  rw [get?, get?, m.entryAt?_congr h]

theorem components_of_entryAt? {α : Type} {m : PathMap α} {q : Path} {e : Path × α}
    (h : m.entryAt? q = some e) : e.1.components = q.components := by
  rw [entryAt?] at h
  have hsame := List.find?_some h
  exact Path.same_iff.1 hsame

theorem mem_entries_iff {α : Type} {m : PathMap α} {e : Path × α} :
    e ∈ m.entries ↔ m.entryAt? e.1 = some e := by
  rw [entryAt?]
  constructor
  · intro h
    refine List.find?_eq_some_iff_append.2 ⟨Path.same_iff.2 rfl, ?_⟩
    obtain ⟨before, after, hsplit⟩ := List.append_of_mem h
    refine ⟨before, after, hsplit, fun f hf => ?_⟩
    have hlt : Path.Before f e := by
      have horder := m.inOrder
      rw [hsplit, List.pairwise_append] at horder
      exact horder.2.2 f hf e List.mem_cons_self
    have hgt : e.1.compare f.1 = .gt := Std.OrientedCmp.gt_of_lt hlt
    rw [Path.same_eq_false_of_compare (by rw [hgt]; exact Ordering.noConfusion)]
    rfl
  · exact List.mem_of_find?_eq_some

/-- What a table has at a path is an entry of it, under some spelling of the path. -/
theorem get?_eq_some_iff {α : Type} {m : PathMap α} {q : Path} {v : α} :
    m.get? q = some v ↔ ∃ k, (k, v) ∈ m.entries ∧ k.components = q.components := by
  rw [get?, Option.map_eq_some_iff]
  constructor
  · rintro ⟨e, he, rfl⟩
    have hcomponents := components_of_entryAt? he
    refine ⟨e.1, mem_entries_iff.2 ?_, hcomponents⟩
    rw [m.entryAt?_congr hcomponents, he]
  · rintro ⟨k, hk, hcomponents⟩
    exact ⟨(k, v), by rw [← m.entryAt?_congr hcomponents, mem_entries_iff.1 hk], rfl⟩

end PathMap

namespace Registry

/-! ## Routes -/

/-- The components of the nearest directory with a route, and the route. -/
def answer (r : Registry) (dir : Path) : Option (List Component × String) :=
  (r.enclosingRoute? dir).map fun e => (e.1.components, e.2)

theorem answer_eq_findSome? (r : Registry) (dir : Path) :
    r.answer dir = dir.ancestors.findSome? fun a => (r.routes.get? a).map (a.components, ·) := by
  rw [answer, enclosingRoute?, List.map_findSome?]
  congr 1
  funext a
  rw [Function.comp_apply, PathMap.get?, Option.map_map]
  cases h : r.routes.entryAt? a with
  | none => rfl
  | some e =>
      rw [Option.map_some, Option.map_some, PathMap.components_of_entryAt? h]
      rfl

theorem snd_answer (r : Registry) (dir : Path) :
    (r.answer dir).map (·.2) = (r.enclosingRoute? dir).map (·.2) := by
  rw [answer, Option.map_map]
  rfl

/-- The first key with a value, when one key gets a new value. Since no key occurs
twice, equal results come from the same place. -/
theorem findSome?_update_congr {α κ β : Type} [DecidableEq κ] {key : α → κ} {f g : α → Option β}
    (k : κ) (v : β) {xs : List α} (hnodup : (xs.map key).Nodup)
    (h : (xs.findSome? fun a => (f a).map (key a, ·)) =
      xs.findSome? fun a => (g a).map (key a, ·)) :
    (xs.findSome? fun a => (if key a = k then some v else f a).map (key a, ·)) =
      xs.findSome? fun a => (if key a = k then some v else g a).map (key a, ·) := by
  have hlater : ∀ {ys : List α} {f : α → Option β} {c : κ} {w : β},
      (ys.findSome? fun a => (f a).map (key a, ·)) = some (c, w) → c ∈ ys.map key := by
    intro ys f c w hfound
    obtain ⟨a, ha, hvalue⟩ := List.exists_of_findSome?_eq_some hfound
    obtain ⟨w', -, hw'⟩ := Option.map_eq_some_iff.1 hvalue
    exact List.mem_map.2 ⟨a, ha, (Prod.mk.inj hw').1⟩
  induction xs with
  | nil => rfl
  | cons a xs ih =>
      obtain ⟨ha, hxs⟩ := List.nodup_cons.1 hnodup
      rw [List.findSome?_cons, List.findSome?_cons] at h ⊢
      by_cases hk : key a = k
      · rw [if_pos hk, if_pos hk]
        rfl
      · rw [if_neg hk, if_neg hk]
        cases hf : f a with
        | none =>
            cases hg : g a with
            | none =>
                rw [hf, hg] at h
                exact ih hxs h
            | some w =>
                rw [hf, hg] at h
                exact absurd (hlater h) ha
        | some w =>
            cases hg : g a with
            | none =>
                rw [hf, hg] at h
                exact absurd (hlater h.symm) ha
            | some w' =>
                rw [hf, hg] at h
                exact h

/-- Where the directories around have the same routes, the answers are the same. -/
theorem answer_congr {r r' : Registry} {dir : Path}
    (h : ∀ a ∈ dir.ancestors, r'.routes.get? a = r.routes.get? a) :
    r'.answer dir = r.answer dir := by
  rw [answer_eq_findSome?, answer_eq_findSome?]
  generalize dir.ancestors = as at h
  induction as with
  | nil => rfl
  | cons a as ih =>
      obtain ⟨ha, has⟩ := List.forall_mem_cons.1 h
      rw [List.findSome?_cons, List.findSome?_cons, ha, ih has]

/-- A new route changes equal answers to equal answers. -/
theorem answer_registerRoute_congr {r r' : Registry} {dir : Path}
    (h : r.answer dir = r'.answer dir) (page : Path) (route : String) :
    (r.registerRoute page route).answer dir = (r'.registerRoute page route).answer dir := by
  simp only [answer_eq_findSome?, registerRoute, PathMap.get?_insert] at h ⊢
  exact findSome?_update_congr page.components route dir.ancestors_components_nodup h

theorem answer_registerNamespace (r : Registry) (id : String) (dir : Path) :
    (r.registerNamespace id).answer dir = r.answer dir := by
  rw [registerNamespace]
  split <;> rfl

/-! ## Namespaces -/

/-- The longer of two namespaces, the first if neither is longer. -/
def longest (a b : String) : String :=
  if a.utf8ByteSize < b.utf8ByteSize then b else a

theorem longest_assoc (a b c : String) : longest (longest a b) c = longest a (longest b c) := by
  simp only [longest]
  by_cases hab : a.utf8ByteSize < b.utf8ByteSize
  · by_cases hbc : b.utf8ByteSize < c.utf8ByteSize
    · simp [hab, hbc, Nat.lt_trans hab hbc]
    · simp [hab, hbc]
  · by_cases hbc : b.utf8ByteSize < c.utf8ByteSize
    · simp [hab, hbc]
    · have hac : ¬ a.utf8ByteSize < c.utf8ByteSize := by omega
      simp [hab, hbc, hac]

theorem foldl_longer_some (ids : List String) (best : String) :
    ids.foldl resolveNamespace?.longer (some best) =
      some ((ids.foldl resolveNamespace?.longer none).elim best (longest best)) := by
  induction ids generalizing best with
  | nil => rfl
  | cons id ids ih =>
      have hstep : resolveNamespace?.longer (some best) id = some (longest best id) := by
        rw [resolveNamespace?.longer, longest]
        split <;> rfl
      rw [List.foldl_cons, List.foldl_cons, hstep, resolveNamespace?.longer, ih, ih]
      cases ids.foldl resolveNamespace?.longer none with
      | none => rfl
      | some other => exact congrArg some (longest_assoc best id other)

theorem eq_nil_of_foldl_longer {ids : List String}
    (h : ids.foldl resolveNamespace?.longer none = none) : ids = [] := by
  have hsome := foldl_longer_isSome ids none
  rw [h, Option.isSome_none, Bool.false_or, eq_comm, Bool.not_eq_false', List.isEmpty_iff] at hsome
  exact hsome

/-- The answer is one of the namespaces, and none of them is longer. -/
theorem foldl_longer_spec {ids : List String} {best : String}
    (h : ids.foldl resolveNamespace?.longer none = some best) :
    best ∈ ids ∧ ∀ id ∈ ids, id.utf8ByteSize ≤ best.utf8ByteSize := by
  induction ids generalizing best with
  | nil => exact nomatch h
  | cons id ids ih =>
      rw [List.foldl_cons, resolveNamespace?.longer, foldl_longer_some] at h
      cases hrest : ids.foldl resolveNamespace?.longer none with
      | none =>
          rw [hrest] at h
          cases h
          rw [eq_nil_of_foldl_longer hrest]
          simp
      | some other =>
          rw [hrest] at h
          obtain ⟨hmem, hle⟩ := ih hrest
          have hbest := Option.some.inj h
          rw [Option.elim_some, longest] at hbest
          split at hbest
          · next hlt =>
              subst hbest
              refine ⟨List.mem_cons_of_mem id hmem, List.forall_mem_cons.2 ⟨?_, hle⟩⟩
              omega
          · next hnot =>
              subst hbest
              refine ⟨List.mem_cons_self, List.forall_mem_cons.2 ⟨Nat.le_refl _, fun i hi => ?_⟩⟩
              have hi' := hle i hi
              omega

/-- A namespace is around a caller if the caller starts with it and ends there or goes
on with a bar. -/
theorem encloses_iff {caller id : String} :
    encloses caller id = true ↔
      id = "" ∨ caller = id ∨ ∃ rest, caller.toList = id.toList ++ '|' :: rest := by
  have hbar : "|".toList = ['|'] := rfl
  rw [encloses, Text.dropStart?]
  by_cases hid : id = ""
  · rw [if_pos hid]
    exact iff_of_true rfl (.inl hid)
  · rw [if_neg hid, or_iff_right hid]
    constructor
    · intro h
      cases hafter : Text.after? id.toList caller.toList with
      | none =>
          rw [hafter] at h
          exact nomatch h
      | some rest =>
          have hcaller := Text.eq_append_of_after? hafter
          rw [hafter, Option.map_some] at h
          dsimp only at h
          rw [Bool.or_eq_true, decide_eq_true_eq, Text.startsWith, hbar, String.toList_ofList] at h
          rcases h with hrest | hrest
          · obtain rfl : rest = [] := by
              rw [← String.toList_ofList (l := rest), hrest]
              rfl
            rw [List.append_nil] at hcaller
            exact .inl (String.toList_inj.1 hcaller)
          · obtain ⟨tail, rfl⟩ := List.isPrefixOf_iff_prefix.1 hrest
            exact .inr ⟨tail, hcaller⟩
    · rintro (rfl | ⟨rest, hrest⟩)
      · have hself := Text.after?_append caller.toList []
        rw [List.append_nil] at hself
        rw [hself]
        rfl
      · rw [hrest, Text.after?_append, Option.map_some]
        dsimp only
        rw [Bool.or_eq_true, Text.startsWith, hbar, String.toList_ofList]
        exact .inr (List.isPrefixOf_iff_prefix.2 ⟨rest, rfl⟩)

theorem encloses_self (id : String) : encloses id id = true :=
  encloses_iff.2 (.inr (.inl rfl))

theorem prefix_of_encloses {caller id : String} (h : encloses caller id = true) :
    id.toList <+: caller.toList := by
  rw [encloses] at h
  split at h
  · next hempty =>
      rw [hempty]
      exact List.nil_prefix
  · split at h
    · exact nomatch h
    · next rest hrest =>
        obtain ⟨cs, hcs, -⟩ := Option.map_eq_some_iff.1 hrest
        exact ⟨cs, (Text.eq_append_of_after? hcs).symm⟩

theorem size_le_of_isPrefix_toList {a b : String} (h : a.toList <+: b.toList) :
    a.utf8ByteSize ≤ b.utf8ByteSize := by
  obtain ⟨rest, hrest⟩ := h
  have hb : b = a ++ String.ofList rest := by
    rw [← String.toList_inj, String.toList_append, String.toList_ofList, hrest]
  rw [hb, String.utf8ByteSize_append]
  omega

theorem size_le_of_encloses {caller id : String} (h : encloses caller id = true) :
    id.utf8ByteSize ≤ caller.utf8ByteSize :=
  size_le_of_isPrefix_toList (prefix_of_encloses h)

/-- Two namespaces around one caller that are equally long are equal. -/
theorem eq_of_encloses {caller a b : String} (ha : encloses caller a = true)
    (hb : encloses caller b = true) (hsize : a.utf8ByteSize = b.utf8ByteSize) : a = b := by
  have heq : ∀ {a b : String}, a.toList <+: b.toList → a.utf8ByteSize = b.utf8ByteSize →
      a = b := by
    rintro a b ⟨rest, hrest⟩ hsize
    have hb : b = a ++ String.ofList rest := by
      rw [← String.toList_inj, String.toList_append, String.toList_ofList, hrest]
    rw [hb, String.utf8ByteSize_append] at hsize
    have hzero : (String.ofList rest).utf8ByteSize = 0 := by omega
    rw [hb, String.utf8ByteSize_eq_zero_iff.1 hzero, String.append_empty]
  rcases List.prefix_or_prefix_of_prefix (prefix_of_encloses ha) (prefix_of_encloses hb) with h | h
  · exact heq h hsize
  · exact (heq h hsize.symm).symm

/-- The answer is the longest of the loaded namespaces around the caller. -/
theorem resolveNamespace?_eq_some_iff {r : Registry} {caller id : String} :
    r.resolveNamespace? caller = some id ↔
      id ∈ r.namespaces ∧ encloses caller id = true ∧
        ∀ other ∈ r.namespaces, encloses caller other = true →
          other.utf8ByteSize ≤ id.utf8ByteSize := by
  constructor
  · intro h
    obtain ⟨hmem, hle⟩ := foldl_longer_spec h
    obtain ⟨hin, hid⟩ := List.mem_filter.1 hmem
    exact ⟨hin, hid, fun other hother hcaller => hle other (List.mem_filter.2 ⟨hother, hcaller⟩)⟩
  · rintro ⟨hin, hid, hle⟩
    have hfilter : id ∈ r.namespaces.filter (encloses caller) := List.mem_filter.2 ⟨hin, hid⟩
    cases hbest : r.resolveNamespace? caller with
    | none =>
        rw [eq_nil_of_foldl_longer hbest] at hfilter
        exact absurd hfilter List.not_mem_nil
    | some best =>
        obtain ⟨hmem, hlonger⟩ := foldl_longer_spec hbest
        obtain ⟨hbestin, hbestcaller⟩ := List.mem_filter.1 hmem
        have hsize := Nat.le_antisymm (hle best hbestin hbestcaller) (hlonger id hfilter)
        rw [eq_of_encloses hbestcaller hid hsize]

/-- The order in which namespaces were loaded makes no difference. -/
theorem resolveNamespace?_congr {r r' : Registry}
    (h : ∀ id, id ∈ r'.namespaces ↔ id ∈ r.namespaces) (caller : String) :
    r'.resolveNamespace? caller = r.resolveNamespace? caller := by
  ext id
  rw [resolveNamespace?_eq_some_iff, resolveNamespace?_eq_some_iff, h]
  simp only [h]

/-- A new namespace is the answer if it is around the caller and no shorter than
the answer so far. -/
theorem resolveNamespace?_registerNamespace (r : Registry) (id caller : String) :
    (r.registerNamespace id).resolveNamespace? caller =
      if encloses caller id then
        some ((r.resolveNamespace? caller).elim id (longest id))
      else r.resolveNamespace? caller := by
  rw [registerNamespace]
  split
  · next hmem =>
      split
      · next hid =>
          have hfilter : id ∈ r.namespaces.filter (encloses caller) :=
            List.mem_filter.2 ⟨hmem, hid⟩
          cases hbest : r.resolveNamespace? caller with
          | none =>
              rw [eq_nil_of_foldl_longer hbest] at hfilter
              exact absurd hfilter List.not_mem_nil
          | some best =>
              obtain ⟨hin, hle⟩ := foldl_longer_spec hbest
              have hsize := hle id hfilter
              rw [Option.elim_some, longest]
              split
              · rfl
              · have heq : id.utf8ByteSize = best.utf8ByteSize := by omega
                rw [eq_of_encloses hid (List.mem_filter.1 hin).2 heq]
      · rfl
  · split
    · next hid =>
        rw [resolveNamespace?, List.filter_cons_of_pos hid, List.foldl_cons,
          resolveNamespace?.longer, foldl_longer_some]
        rfl
    · next hid => rw [resolveNamespace?, List.filter_cons_of_neg hid, resolveNamespace?]

end Registry

end SiteMacros
