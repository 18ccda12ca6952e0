import SiteMacros.Path

/-!
# Tables keyed by paths

A table holds its entries in the order of paths, each path once in whatever
spelling it was first given. Inserting under a path that is there replaces the
value and keeps the spelling.

The order is a part of the table. It is what makes looking at the first entry
that fits as good as looking at all, and it is why two ways to fill a table with
the same keys leave tables of the same size.
-/

namespace SiteMacros

variable {α : Type}

/-- Does an entry come before another? -/
def Path.Before (e f : Path × α) : Prop :=
  e.1.compare f.1 = .lt

theorem Path.before_nil : ([] : List (Path × α)).Pairwise Path.Before :=
  List.Pairwise.nil

/-- A table from paths to values, sorted by path. -/
structure PathMap (α : Type) where
  entries : List (Path × α) := []
  /-- The entries are in order, and no two have the same path. -/
  inOrder : entries.Pairwise Path.Before := by exact Path.before_nil
  deriving Repr

instance : Inhabited (PathMap α) := ⟨{}⟩

namespace PathMap

/-- Put `v` at `k` into a sorted list of entries. -/
def insertEntry (k : Path) (v : α) : List (Path × α) → List (Path × α)
  | [] => [(k, v)]
  | (k', v') :: rest =>
      match k.compare k' with
      | .lt => (k, v) :: (k', v') :: rest
      | .eq => (k', v) :: rest
      | .gt => (k', v') :: insertEntry k v rest

/-- What comes before a key and before all entries comes before them after the
key is put in. -/
theorem before_insertEntry {e : Path × α} {k : Path} {v : α} {es : List (Path × α)}
    (hk : Path.Before e (k, v)) (hes : ∀ f ∈ es, Path.Before e f) :
    ∀ f ∈ insertEntry k v es, Path.Before e f := by
  induction es with
  | nil => simpa [insertEntry] using hk
  | cons f es ih =>
      obtain ⟨k', v'⟩ := f
      obtain ⟨hf, hes⟩ := List.forall_mem_cons.1 hes
      rw [insertEntry]
      split
      · exact List.forall_mem_cons.2 ⟨hk, List.forall_mem_cons.2 ⟨hf, hes⟩⟩
      · exact List.forall_mem_cons.2 ⟨hf, hes⟩
      · exact List.forall_mem_cons.2 ⟨hf, ih hes⟩

theorem insertEntry_inOrder (k : Path) (v : α) {es : List (Path × α)}
    (h : es.Pairwise Path.Before) : (insertEntry k v es).Pairwise Path.Before := by
  induction es with
  | nil => exact List.pairwise_singleton _ _
  | cons f es ih =>
      obtain ⟨k', v'⟩ := f
      obtain ⟨hf, hes⟩ := List.pairwise_cons.1 h
      rw [insertEntry]
      split
      · rename_i hlt
        refine List.pairwise_cons.2 ⟨List.forall_mem_cons.2 ⟨hlt, fun g hg => ?_⟩, h⟩
        exact Std.TransCmp.lt_trans hlt (hf g hg)
      · exact List.pairwise_cons.2 ⟨hf, hes⟩
      · rename_i hgt
        exact List.pairwise_cons.2
          ⟨before_insertEntry (Std.OrientedCmp.lt_of_gt hgt) hf, ih hes⟩

/-- The table with `v` at `k`. -/
def insert (m : PathMap α) (k : Path) (v : α) : PathMap α :=
  ⟨insertEntry k v m.entries, insertEntry_inOrder k v m.inOrder⟩

/-- The entry at `k`, with the key in the spelling the table has. -/
def entryAt? (m : PathMap α) (k : Path) : Option (Path × α) :=
  m.entries.find? fun e => e.1.same k

/-- The value at `k`. -/
def get? (m : PathMap α) (k : Path) : Option α :=
  (m.entryAt? k).map (·.2)

/-- Is there an entry at `k`? -/
def contains (m : PathMap α) (k : Path) : Bool :=
  (m.entryAt? k).isSome

/-- The table without the entry at `k`. -/
def erase (m : PathMap α) (k : Path) : PathMap α :=
  ⟨m.entries.filter fun e => !e.1.same k, m.inOrder.filter _⟩

/-- The table without the entries at or below `dir`. -/
def eraseUnder (m : PathMap α) (dir : Path) : PathMap α :=
  ⟨m.entries.filter fun e => !e.1.startsWith dir, m.inOrder.filter _⟩

/-- The number of entries. -/
def size (m : PathMap α) : Nat :=
  m.entries.length

/-- The keys in order. -/
def keys (m : PathMap α) : List Path :=
  m.entries.map (·.1)

/-! ### What is in a table after an insertion -/

/-- A key that comes before the first entry is not there. -/
theorem find?_eq_none_of_lt {k : Path} {e : Path × α} {es : List (Path × α)}
    (hlt : k.compare e.1 = .lt) (h : (e :: es).Pairwise Path.Before) :
    ((e :: es).find? fun f => f.1.same k) = none := by
  refine List.find?_eq_none.2 fun f hf => ?_
  have hkf : k.compare f.1 = .lt := by
    cases hf with
    | head => exact hlt
    | tail _ hf => exact Std.TransCmp.lt_trans hlt ((List.pairwise_cons.1 h).1 f hf)
  rw [Path.same_eq_false_of_compare (by rw [hkf]; exact Ordering.noConfusion)]
  exact Bool.false_ne_true

theorem find?_insertEntry_other {k q : Path} (hq : k.components ≠ q.components) (v : α)
    (es : List (Path × α)) :
    ((insertEntry k v es).find? fun e => e.1.same q) = es.find? fun e => e.1.same q := by
  have hk : k.same q = false := by simpa [Path.same] using hq
  induction es with
  | nil => simp [insertEntry, hk]
  | cons e es ih =>
      obtain ⟨k', v'⟩ := e
      rw [insertEntry]
      split
      · simp [List.find?_cons, hk]
      · rename_i heq
        have hk' : k'.same q = false := by
          simpa [Path.same, ← Path.compare_eq_iff.1 heq] using hq
        simp [hk']
      · simp [List.find?_cons, ih]

theorem find?_insertEntry_self (k : Path) (v : α) {es : List (Path × α)}
    (h : es.Pairwise Path.Before) :
    ((insertEntry k v es).find? fun e => e.1.same k) =
      some (((es.find? fun e => e.1.same k).map (·.1)).getD k, v) := by
  have hself : k.same k = true := Path.same_iff.2 rfl
  induction es with
  | nil => simp [insertEntry, hself]
  | cons e es ih =>
      obtain ⟨k', v'⟩ := e
      rw [insertEntry]
      split
      · rename_i hlt
        rw [List.find?_cons, hself, find?_eq_none_of_lt (e := (k', v')) hlt h]
        rfl
      · rename_i heq
        have hs : k'.same k = true := Path.same_iff.2 (Path.compare_eq_iff.1 heq).symm
        rw [List.find?_cons, List.find?_cons, hs]
        rfl
      · rename_i hgt
        have hs : k'.same k = false :=
          Path.same_eq_false_of_compare (by rw [hgt]; exact Ordering.noConfusion)
        rw [List.find?_cons, List.find?_cons, hs]
        exact ih (List.pairwise_cons.1 h).2

/-- An inserted key has the new value, in the spelling it had before. -/
theorem entryAt?_insert_of_same (m : PathMap α) {k q : Path} (h : k.components = q.components)
    (v : α) : (m.insert k v).entryAt? q = some (((m.entryAt? q).map (·.1)).getD k, v) := by
  have hq : (fun e : Path × α => e.1.same q) = fun e => e.1.same k := by
    funext e
    simp [Path.same, h]
  rw [entryAt?, entryAt?, hq]
  exact find?_insertEntry_self k v m.inOrder

/-- An insertion leaves the other keys alone. -/
theorem entryAt?_insert_of_ne (m : PathMap α) {k q : Path} (h : k.components ≠ q.components)
    (v : α) : (m.insert k v).entryAt? q = m.entryAt? q :=
  find?_insertEntry_other h v m.entries

theorem contains_insert (m : PathMap α) (k : Path) (v : α) (q : Path) :
    (m.insert k v).contains q = (m.contains q || k.same q) := by
  by_cases h : k.components = q.components
  · simp [contains, entryAt?_insert_of_same m h v, Path.same_iff.2 h]
  · have hs : k.same q = false := by simpa [Path.same] using h
    simp [contains, entryAt?_insert_of_ne m h v, hs]

theorem length_insertEntry (k : Path) (v : α) {es : List (Path × α)}
    (h : es.Pairwise Path.Before) :
    (insertEntry k v es).length =
      es.length + if (es.find? fun e => e.1.same k).isSome then 0 else 1 := by
  induction es with
  | nil => rfl
  | cons e es ih =>
      obtain ⟨k', v'⟩ := e
      rw [insertEntry]
      split
      · rename_i hlt
        simp [find?_eq_none_of_lt (e := (k', v')) hlt h]
      · rename_i heq
        have hs : k'.same k = true := Path.same_iff.2 (Path.compare_eq_iff.1 heq).symm
        simp [hs]
      · rename_i hgt
        have hs : k'.same k = false :=
          Path.same_eq_false_of_compare (by rw [hgt]; exact Ordering.noConfusion)
        simp only [List.length_cons, ih (List.pairwise_cons.1 h).2, List.find?_cons, hs]
        omega

/-- A table grows by an insertion only if the key is new. -/
theorem size_insert (m : PathMap α) (k : Path) (v : α) :
    (m.insert k v).size = m.size + if m.contains k then 0 else 1 :=
  length_insertEntry k v m.inOrder

end PathMap

/-- A set of paths in order, each in its first spelling. -/
abbrev PathSet := PathMap Unit

namespace PathSet

/-- The set with `p` in it; a member keeps its spelling. -/
def add (s : PathSet) (p : Path) : PathSet :=
  s.insert p ()

/-- The set with all of `ps` in it. -/
def addAll (s : PathSet) (ps : List Path) : PathSet :=
  ps.foldl add s

/-- The members in order. -/
def toList (s : PathSet) : List Path :=
  s.keys

end PathSet

end SiteMacros
