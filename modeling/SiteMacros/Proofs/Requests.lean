import Mathlib.Data.List.Nodup
import Mathlib.Data.List.Perm.Subperm
import Mathlib.Data.Nat.Find
import SiteMacros.Script.Import

/-!
# Runs of requests for imports

A scope is asked for imports again and again while a module is expanded, and what
it answers depends on all it was asked before. The argument is the same for one
request and for a run of them: what a run leaves behind is the scope it began with
and a list of new imports on top, whose keys were bound to nothing and whose names
were in use for nothing (`Since`). One request adds nothing or one import, and runs
compose.

Everything that is said of a run can be read off that list. The answers are what
the last scope has for the keys, so equal keys have equal answers; the names of new
imports differ from each other and from all names taken before, so different keys
have different ones; and the declarations are those of the new keys in the order in
which they were first asked for (`run_answers`).

A new name is found by trying one candidate after the other. No two candidates are
equal, so one more than there are names taken is enough, and the search ends.
-/

namespace SiteMacros.ImportScope

/-! ## The search for a name -/

theorem candidate_injective (hint : String) {m n : Nat} (h : candidate hint m = candidate hint n) :
    m = n := by
  have hlength : ∀ k : Nat, 0 < k →
      ("__pm_" ++ sanitize hint).length < (candidate hint k).length := by
    intro k hk
    rw [candidate, if_neg (by omega)]
    simp only [String.length_append]
    have hone : "_".length = 1 := rfl
    omega
  have hbase : candidate hint 0 = "__pm_" ++ sanitize hint := rfl
  rcases Nat.eq_zero_or_pos m with rfl | hm
  · rcases Nat.eq_zero_or_pos n with rfl | hn
    · rfl
    · have hn := hlength n hn
      rw [← h, hbase] at hn
      omega
  · rcases Nat.eq_zero_or_pos n with rfl | hn
    · have hm := hlength m hm
      rw [h, hbase] at hm
      omega
    · rw [candidate, candidate, if_neg (by omega), if_neg (by omega)] at h
      have hdigits := congrArg (fun s => Nat.ofDigitChars 10 s.toList 0)
        (String.append_right_inj _ |>.1 h)
      simpa [Nat.toList_repr, Nat.ofDigitChars_ten_toDigits] using hdigits

/-- The search ends at the first free candidate there is, if it may try as many. -/
theorem freshFrom_eq {taken : List String} {hint : String} {k : Nat}
    (hfree : candidate hint k ∉ taken) {tries n : Nat} (hn : n ≤ k) (htries : k ≤ n + tries)
    (hfirst : ∀ m, n ≤ m → m < k → candidate hint m ∈ taken) :
    freshFrom taken hint tries n = candidate hint k := by
  induction tries generalizing n with
  | zero =>
      obtain rfl : n = k := by omega
      rfl
  | succ tries ih =>
      rw [freshFrom]
      rcases Nat.eq_or_lt_of_le hn with rfl | hlt
      · rw [if_neg (by simpa using hfree)]
      · rw [if_pos (by simpa using hfirst n (Nat.le_refl n) hlt)]
        exact ih hlt (by omega) fun m hm => hfirst m (by omega)

/-- Some candidate is free: all but one of so many would have to be taken twice. -/
theorem exists_free_candidate (taken : List String) (hint : String) :
    ∃ n ≤ taken.length, candidate hint n ∉ taken := by
  refine Decidable.byContradiction fun hnone => ?_
  have hall : ∀ n ≤ taken.length, candidate hint n ∈ taken := by
    intro n hn
    refine Decidable.byContradiction fun hfree => hnone ⟨n, hn, hfree⟩
  have hdistinct : ((List.range (taken.length + 1)).map (candidate hint)).Nodup :=
    List.pairwise_map.2 (List.nodup_range.imp fun hne heq => hne (candidate_injective hint heq))
  have hsubset : (List.range (taken.length + 1)).map (candidate hint) ⊆ taken := by
    intro name hname
    obtain ⟨n, hn, rfl⟩ := List.mem_map.1 hname
    exact hall n (by simpa [Nat.lt_succ_iff] using hn)
  have hlength := (hdistinct.subperm hsubset).length_le
  rw [List.length_map, List.length_range] at hlength
  omega

/-- A new name is the first of its candidates that is not in use. -/
theorem fresh_eq_first (taken : List String) (hint : String) :
    ∃ n, fresh taken hint = candidate hint n ∧ candidate hint n ∉ taken ∧
      ∀ m < n, candidate hint m ∈ taken := by
  have hsome : ∃ n, candidate hint n ∉ taken :=
    (exists_free_candidate taken hint).imp fun _ => And.right
  have hfirst : ∀ m < Nat.find hsome, candidate hint m ∈ taken := fun m hm =>
    Decidable.of_not_not (Nat.find_min hsome hm)
  obtain ⟨k, hk, hfree⟩ := exists_free_candidate taken hint
  have hbound : Nat.find hsome ≤ k := Nat.find_min' hsome hfree
  refine ⟨Nat.find hsome, ?_, Nat.find_spec hsome, hfirst⟩
  exact freshFrom_eq (Nat.find_spec hsome) (Nat.zero_le _) (by omega) fun m _ => hfirst m

/-- A new name is longer than what it is made from, so it is never the name of the
export that it stands for. -/
theorem fresh_ne_hint (taken : List String) (hint : String) : fresh taken hint ≠ hint := by
  intro heq
  obtain ⟨n, hn, -⟩ := fresh_eq_first taken hint
  have hsanitized : (sanitize hint).length = hint.length := by
    rw [sanitize, String.length_ofList, List.length_map, String.length_toList]
  have hlength := congrArg String.length (hn.symm.trans heq)
  have hfive : "__pm_".length = 5 := rfl
  rw [candidate] at hlength
  split at hlength <;> simp only [String.length_append] at hlength <;> omega

theorem fresh_not_mem (taken : List String) (hint : String) : fresh taken hint ∉ taken := by
  obtain ⟨n, heq, hfree, -⟩ := fresh_eq_first taken hint
  rwa [heq]

/-! ## What a run adds -/

/-- The scope has come from `base` by adding the imports `new`. -/
structure Since (base : ImportScope) (new : List AddedImport) (scope : ImportScope) : Prop where
  taken : scope.taken = (new.map (·.localName)).reverse ++ base.taken
  bound : scope.bound = (new.map fun i => (i.key, i.localName)).reverse ++ base.bound
  added : scope.added = base.added ++ new
  unbound : ∀ i ∈ new, base.bound.lookup i.key = none
  free : ∀ i ∈ new, i.localName ∉ base.taken
  keys : (new.map (·.key)).Nodup
  locals : (new.map (·.localName)).Nodup

section

variable {base scope later : ImportScope} {new more : List AddedImport} {key : ImportKey}
  {hint name : String}

theorem lookup_entries_of_mem (hkeys : (new.map (·.key)).Nodup) {i : AddedImport} (hi : i ∈ new) :
    ((new.map fun i => (i.key, i.localName)).reverse).lookup i.key = some i.localName := by
  induction new with
  | nil => cases hi
  | cons j new ih =>
      obtain ⟨hnot, hkeys⟩ := List.nodup_cons.1 hkeys
      rw [List.map_cons, List.reverse_cons, List.lookup_append]
      rcases List.mem_cons.1 hi with rfl | hi
      · rw [List.lookup_eq_none_iff.2, Option.none_or, List.lookup_cons_self]
        intro p hp
        obtain ⟨k, hk, rfl⟩ := List.mem_map.1 (List.mem_reverse.1 hp)
        refine bne_iff_ne.2 fun heq => hnot (List.mem_map.2 ⟨k, hk, ?_⟩)
        exact heq.symm
      · rw [ih hkeys hi, Option.some_or]

theorem lookup_entries_eq_none :
    ((new.map fun i => (i.key, i.localName)).reverse).lookup key = none ↔
      key ∉ new.map (·.key) := by
  rw [List.lookup_eq_none_iff]
  constructor
  · intro h hmem
    obtain ⟨i, hi, rfl⟩ := List.mem_map.1 hmem
    have hne := h (i.key, i.localName) (List.mem_reverse.2 (List.mem_map.2 ⟨i, hi, rfl⟩))
    simp at hne
  · intro h p hp
    obtain ⟨i, hi, rfl⟩ := List.mem_map.1 (List.mem_reverse.1 hp)
    exact bne_iff_ne.2 fun heq => h (List.mem_map.2 ⟨i, hi, heq.symm⟩)

namespace Since

theorem refl (scope : ImportScope) : Since scope [] scope where
  taken := rfl
  bound := rfl
  added := (List.append_nil _).symm
  unbound _ h := absurd h List.not_mem_nil
  free _ h := absurd h List.not_mem_nil
  keys := List.Pairwise.nil
  locals := List.Pairwise.nil

/-- What was bound stays bound to the same name. -/
theorem lookup_of_base (h : Since base new scope) (hbase : base.bound.lookup key = some name) :
    scope.bound.lookup key = some name := by
  have hnot : key ∉ new.map (·.key) := by
    intro hmem
    obtain ⟨i, hi, rfl⟩ := List.mem_map.1 hmem
    rw [h.unbound i hi] at hbase
    cases hbase
  rw [h.bound, List.lookup_append, lookup_entries_eq_none.2 hnot, Option.none_or, hbase]

theorem lookup_of_mem (h : Since base new scope) {i : AddedImport} (hi : i ∈ new) :
    scope.bound.lookup i.key = some i.localName := by
  rw [h.bound, List.lookup_append, lookup_entries_of_mem h.keys hi, Option.some_or]

theorem lookup_eq_none (h : Since base new scope) :
    scope.bound.lookup key = none ↔ key ∉ new.map (·.key) ∧ base.bound.lookup key = none := by
  rw [h.bound, List.lookup_append, Option.or_eq_none_iff, lookup_entries_eq_none]

/-- A name is bound by the scope at the beginning or by a new import. -/
theorem lookup_cases (h : Since base new scope) (hscope : scope.bound.lookup key = some name) :
    base.bound.lookup key = some name ∨ ⟨key, name⟩ ∈ new := by
  by_cases hmem : key ∈ new.map (·.key)
  · obtain ⟨i, hi, rfl⟩ := List.mem_map.1 hmem
    rw [h.lookup_of_mem hi] at hscope
    cases hscope
    exact .inr hi
  · rw [h.bound, List.lookup_append, lookup_entries_eq_none.2 hmem, Option.none_or] at hscope
    exact .inl hscope

theorem trans (h : Since base new scope) (h' : Since scope more later) :
    Since base (new ++ more) later where
  taken := by rw [h'.taken, h.taken, List.map_append, List.reverse_append, List.append_assoc]
  bound := by rw [h'.bound, h.bound, List.map_append, List.reverse_append, List.append_assoc]
  added := by rw [h'.added, h.added, List.append_assoc]
  unbound i hi := by
    rcases List.mem_append.1 hi with hi | hi
    · exact h.unbound i hi
    · exact (h.lookup_eq_none.1 (h'.unbound i hi)).2
  free i hi := by
    rcases List.mem_append.1 hi with hi | hi
    · exact h.free i hi
    · have hfree := h'.free i hi
      rw [h.taken, List.mem_append, not_or] at hfree
      exact hfree.2
  keys := by
    rw [List.map_append, List.nodup_append]
    refine ⟨h.keys, h'.keys, fun k hk k' hk' heq => ?_⟩
    obtain ⟨i, hi, rfl⟩ := List.mem_map.1 hk'
    exact (h.lookup_eq_none.1 (h'.unbound i hi)).1 (heq ▸ hk)
  locals := by
    rw [List.map_append, List.nodup_append]
    refine ⟨h.locals, h'.locals, fun l hl l' hl' heq => ?_⟩
    obtain ⟨i, hi, rfl⟩ := List.mem_map.1 hl'
    refine h'.free i hi ?_
    rw [h.taken]
    exact List.mem_append_left _ (List.mem_reverse.2 (heq ▸ hl))

end Since

theorem request_of_bound (h : scope.bound.lookup key = some name) :
    scope.request key hint = (name, scope) := by
  rw [request, h]

theorem request_of_unbound (hint : String) (h : scope.bound.lookup key = none) :
    (scope.request key hint).1 = fresh scope.taken hint ∧
      Since scope [⟨key, fresh scope.taken hint⟩] (scope.request key hint).2 := by
  rw [request, h]
  refine ⟨rfl, rfl, rfl, rfl, ?_, ?_, List.pairwise_singleton _ _, List.pairwise_singleton _ _⟩
  · intro i hi
    rw [List.mem_singleton.1 hi]
    exact h
  · intro i hi
    rw [List.mem_singleton.1 hi]
    exact fresh_not_mem _ _

/-- What is asked for is bound afterwards, to the answer. -/
theorem lookup_request (scope : ImportScope) (key : ImportKey) (hint : String) :
    (scope.request key hint).2.bound.lookup key = some (scope.request key hint).1 := by
  cases h : scope.bound.lookup key with
  | some name => rw [request_of_bound h, h]
  | none =>
      obtain ⟨hname, hsince⟩ := request_of_unbound hint h
      rw [hname]
      exact hsince.lookup_of_mem (List.mem_singleton.2 rfl)

end

/-! ## Runs -/

/-- What an expansion may ask a scope for. -/
inductive Request where
  | default (source hint : String)
  | named (source name : String)
  deriving DecidableEq, Repr

namespace Request

def key : Request → ImportKey
  | .default source _ => ⟨source, .default⟩
  | .named source name => ⟨source, .named name⟩

def hint : Request → String
  | .default _ hint => hint
  | .named _ name => name

def ask : Request → StateM ImportScope String
  | .default source hint => requestDefault source hint
  | .named source name => requestNamed source name

theorem ask_eq (r : Request) (scope : ImportScope) : r.ask scope = scope.request r.key r.hint := by
  cases r <;> rfl

theorem binding_ne_fresh (r : Request) (taken : List String) :
    r.key.binding ≠ .named (fresh taken r.hint) := by
  cases r with
  | default source hint => simp [key]
  | named source name =>
      intro heq
      exact fresh_ne_hint taken name (Binding.named.inj heq).symm

end Request

/-- Asks for one import after the other. -/
def askAll (rs : List Request) (scope : ImportScope) : List String × ImportScope :=
  (rs.mapM Request.ask).run scope

theorem askAll_cons (r : Request) (rs : List Request) (scope : ImportScope) :
    askAll (r :: rs) scope =
      ((scope.request r.key r.hint).1 :: (askAll rs (scope.request r.key r.hint).2).1,
        (askAll rs (scope.request r.key r.hint).2).2) := by
  rw [askAll, List.mapM_cons, ← r.ask_eq]
  rfl

/-- The keys among those asked for that a scope binds to nothing, each once. -/
def newKeys (scope : ImportScope) (rs : List Request) : List ImportKey :=
  ((rs.map Request.key).filter fun k => (scope.bound.lookup k).isNone).eraseDups

variable {scope later : ImportScope} {r : Request} {rs : List Request}

theorem newKeys_cons_of_bound {name : String}
    (h : scope.bound.lookup r.key = some name) : newKeys scope (r :: rs) = newKeys scope rs := by
  rw [newKeys, List.map_cons, List.filter_cons_of_neg (by simp [h])]
  rfl

theorem newKeys_cons_of_unbound {i : AddedImport}
    (h : scope.bound.lookup r.key = none) (hi : i.key = r.key) (hlater : Since scope [i] later) :
    newKeys scope (r :: rs) = r.key :: newKeys later rs := by
  rw [newKeys, List.map_cons, List.filter_cons_of_pos (by simp [h]), List.eraseDups_cons,
    List.filter_filter]
  have hsame : ∀ k : ImportKey, (!k == r.key && (scope.bound.lookup k).isNone) =
      (later.bound.lookup k).isNone := by
    intro k
    have hnone : later.bound.lookup k = none ↔ _ := hlater.lookup_eq_none
    simp only [List.map_cons, List.map_nil, List.mem_singleton, hi] at hnone
    rw [Bool.eq_iff_iff]
    simp [hnone]
  simp only [hsame]
  rfl

/-- A run adds the new keys in the order of first request, under names made from
hints, and answers with what its last scope has for the keys. -/
theorem askAll_since (rs : List Request) (scope : ImportScope) :
    ∃ new, Since scope new (askAll rs scope).2 ∧
      new.map (·.key) = newKeys scope rs ∧
      (∀ i ∈ new, ∃ r ∈ rs, r.key = i.key ∧ ∃ taken, i.localName = fresh taken r.hint) ∧
      (askAll rs scope).1.map some =
        rs.map fun r => (askAll rs scope).2.bound.lookup r.key := by
  induction rs generalizing scope with
  | nil => exact ⟨[], .refl scope, rfl, by simp, rfl⟩
  | cons r rs ih =>
      rw [askAll_cons]
      have hanswer := scope.lookup_request r.key r.hint
      obtain ⟨new, hsince, hkeys, hnames, hanswers⟩ := ih (scope.request r.key r.hint).2
      have hanswers := congrArg₂ List.cons (hsince.lookup_of_base hanswer).symm hanswers
      cases hbound : scope.bound.lookup r.key with
      | some name =>
          rw [request_of_bound hbound] at hsince hkeys hanswers ⊢
          refine ⟨new, hsince, ?_, fun i hi => ?_, hanswers⟩
          · rw [hkeys, newKeys_cons_of_bound hbound]
          · obtain ⟨r', hr', h⟩ := hnames i hi
            exact ⟨r', List.mem_cons_of_mem _ hr', h⟩
      | none =>
          obtain ⟨-, hone⟩ := request_of_unbound r.hint hbound
          refine ⟨_ :: new, hone.trans hsince, ?_, fun i hi => ?_, hanswers⟩
          · rw [List.map_cons, hkeys, newKeys_cons_of_unbound hbound rfl hone]
          · rcases List.mem_cons.1 hi with rfl | hi
            · exact ⟨r, List.mem_cons_self, rfl, scope.taken, rfl⟩
            · obtain ⟨r', hr', h⟩ := hnames i hi
              exact ⟨r', List.mem_cons_of_mem _ hr', h⟩

/-! ## The scope of a module -/

/-- The declaration that binds an import to a name other than its own. -/
def bindingText (key : ImportKey) (localName : String) : String :=
  match key.binding with
  | .default => "import " ++ localName ++ " from " ++ Text.quoted key.source ++ ";\n"
  | .named name =>
      "import \x7b " ++ name ++ " as " ++ localName ++ " \x7d from " ++ Text.quoted key.source ++
        ";\n"

theorem declaration_eq_bindingText {i : AddedImport} (h : i.key.binding ≠ .named i.localName) :
    declaration i = bindingText i.key i.localName := by
  rw [declaration, bindingText]
  cases hbinding : i.key.binding with
  | default => rfl
  | named name => exact if_neg fun heq => h (hbinding.trans (congrArg Binding.named heq))

section

variable {taken : List String} {kept : List Script.ImportDeclaration}

theorem lookup_ofModule_eq_none {key : ImportKey} :
    (ofModule taken kept).bound.lookup key = none ↔
      key ∉ (kept.flatMap (·.bindings)).map Prod.fst := by
  rw [ofModule, List.lookup_eq_none_iff]
  constructor
  · intro h hmem
    obtain ⟨b, hb, rfl⟩ := List.mem_map.1 hmem
    have hne := h b (List.mem_reverse.2 hb)
    simp at hne
  · intro h b hb
    exact bne_iff_ne.2 fun heq => h (List.mem_map.2 ⟨b, List.mem_reverse.1 hb, heq.symm⟩)

theorem mem_of_lookup_ofModule {key : ImportKey} {name : String}
    (h : (ofModule taken kept).bound.lookup key = some name) :
    (key, name) ∈ kept.flatMap (·.bindings) := by
  obtain ⟨before, after, hsplit, -⟩ := List.lookup_eq_some_iff.1 h
  rw [← List.mem_reverse]
  show (key, name) ∈ (ofModule taken kept).bound
  rw [hsplit]
  simp

theorem pair_injective {bindings : List (ImportKey × String)}
    (hlocals : (bindings.map Prod.snd).Nodup) {key key' : ImportKey} {name : String}
    (h : (key, name) ∈ bindings) (h' : (key', name) ∈ bindings) : key = key' :=
  congrArg Prod.fst (List.inj_on_of_nodup_map hlocals h h' rfl)

/-- No two keys share a name, however many imports have been added. -/
theorem Since.lookup_injective {new : List AddedImport} {scope : ImportScope}
    (h : Since (ofModule taken kept) new scope)
    (hlocals : ((kept.flatMap (·.bindings)).map Prod.snd).Nodup)
    (htaken : ∀ b ∈ kept.flatMap (·.bindings), b.2 ∈ taken) {key key' : ImportKey} {name : String}
    (hkey : scope.bound.lookup key = some name) (hkey' : scope.bound.lookup key' = some name) :
    key = key' := by
  rcases h.lookup_cases hkey with hbase | hnew
  · have hmem := mem_of_lookup_ofModule hbase
    rcases h.lookup_cases hkey' with hbase' | hnew'
    · exact pair_injective hlocals hmem (mem_of_lookup_ofModule hbase')
    · exact absurd (htaken _ hmem) (h.free _ hnew')
  · rcases h.lookup_cases hkey' with hbase' | hnew'
    · exact absurd (htaken _ (mem_of_lookup_ofModule hbase')) (h.free _ hnew)
    · exact congrArg AddedImport.key (List.inj_on_of_nodup_map h.locals hnew hnew' rfl)

theorem newKeys_ofModule (rs : List Request) :
    newKeys (ofModule taken kept) rs =
      ((rs.map Request.key).filter
        (· ∉ (kept.flatMap (·.bindings)).map Prod.fst)).eraseDups := by
  rw [newKeys]
  congr 1
  refine List.filter_congr fun k _ => ?_
  rw [Bool.eq_iff_iff, Option.isNone_iff_eq_none, lookup_ofModule_eq_none, decide_eq_true_iff]

/-- A scope over imports whose names differ from each other and are all taken:
every search for a name ends, and a run of requests gives every key one name, no
two keys the same. What the module imports already keeps a name that it has there;
all else gets a name that was not taken, and is declared under that name, once and
in the order of first request. -/
theorem run_answers (hlocals : ((kept.flatMap (·.bindings)).map Prod.snd).Nodup)
    (htaken : ∀ b ∈ kept.flatMap (·.bindings), b.2 ∈ taken) (rs : List Request) :
    (∀ taken hint, ∃ n, fresh taken hint = candidate hint n ∧ candidate hint n ∉ taken ∧
      ∀ m < n, candidate hint m ∈ taken) ∧
    ∃ nameOf : ImportKey → String,
      let imported := kept.flatMap (·.bindings)
      let new := ((rs.map Request.key).filter (· ∉ imported.map Prod.fst)).eraseDups
      let run := (rs.mapM Request.ask).run (ofModule taken kept)
      run.1 = rs.map (fun r => nameOf r.key) ∧
      (∀ r ∈ rs, ∀ r' ∈ rs, nameOf r.key = nameOf r'.key ↔ r.key = r'.key) ∧
      (∀ r ∈ rs, r.key ∈ imported.map Prod.fst → (r.key, nameOf r.key) ∈ imported) ∧
      (∀ r ∈ rs, r.key ∉ imported.map Prod.fst → nameOf r.key ∉ taken) ∧
      run.2.added = new.map (fun key => ⟨key, nameOf key⟩) ∧
      run.2.declarations = String.join (new.map fun key => bindingText key (nameOf key)) := by
  refine ⟨fresh_eq_first, ?_⟩
  obtain ⟨new, hsince, hkeys, hnames, hanswers⟩ := askAll_since rs (ofModule taken kept)
  generalize hasks : askAll rs (ofModule taken kept) = run at hsince hanswers
  obtain ⟨names, scope⟩ := run
  have hrun : (rs.mapM Request.ask).run (ofModule taken kept) = (names, scope) := hasks
  let nameOf : ImportKey → String := fun key => (scope.bound.lookup key).getD ""
  have hasked : ∀ r ∈ rs, scope.bound.lookup r.key = some (nameOf r.key) := by
    intro r hr
    have hmem : scope.bound.lookup r.key ∈ names.map some := by
      rw [hanswers]
      exact List.mem_map.2 ⟨r, hr, rfl⟩
    obtain ⟨name, -, hname⟩ := List.mem_map.1 hmem
    simp only [nameOf, ← hname, Option.getD_some]
  have hadded : ∀ i ∈ new, i = ⟨i.key, nameOf i.key⟩ := by
    intro i hi
    simp only [nameOf, hsince.lookup_of_mem hi, Option.getD_some]
  have hnew : new = (newKeys (ofModule taken kept) rs).map fun key => ⟨key, nameOf key⟩ := by
    rw [← hkeys, List.map_map]
    exact (List.map_id' new).symm.trans (List.map_congr_left hadded)
  refine ⟨nameOf, ?_⟩
  simp only [hrun, ← @newKeys_ofModule taken kept]
  refine ⟨?names, ?different, ?kept, ?free, ?added, ?declared⟩
  case names =>
    have hgot := congrArg (List.map (Option.getD · "")) hanswers
    rw [List.map_map, List.map_map] at hgot
    exact (List.map_id' names).symm.trans hgot
  case different =>
    intro r hr r' hr'
    constructor
    · intro heq
      have hsame := hasked r' hr'
      rw [← heq] at hsame
      exact hsince.lookup_injective hlocals htaken (hasked r hr) hsame
    · intro heq
      rw [heq]
  case kept =>
    intro r hr hmem
    rcases hsince.lookup_cases (hasked r hr) with hbase | hadded
    · exact mem_of_lookup_ofModule hbase
    · exact absurd hmem (lookup_ofModule_eq_none.1 (hsince.unbound _ hadded))
  case free =>
    intro r hr hnot
    rcases hsince.lookup_cases (hasked r hr) with hbase | hadded
    · rw [lookup_ofModule_eq_none.2 hnot] at hbase
      cases hbase
    · exact hsince.free _ hadded
  case added => exact hsince.added.trans hnew
  case declared =>
    have htext : ∀ i ∈ new, declaration i = bindingText i.key (nameOf i.key) := by
      intro i hi
      obtain ⟨r, -, hkey, taken, hlocal⟩ := hnames i hi
      have hname : nameOf i.key = i.localName := (congrArg AddedImport.localName (hadded i hi)).symm
      rw [hname, declaration_eq_bindingText]
      rw [← hkey, hlocal]
      exact r.binding_ne_fresh taken
    have hall : scope.added = new := hsince.added
    rw [declarations, hall, ← hkeys, List.map_map]
    exact congrArg String.join (List.map_congr_left htext)

end

/-- Names in the way, keys asked for twice, and `default` in both ways: a default import
by its name, and a named one of that name. -/
def collidingRequests : List Request :=
  [.named "react" "lazy", .default "./a/meta" "meta", .default "./b/meta" "meta",
    .default "./a/meta" "meta", .default "i18next" "i18n", .named "i18next" "default"]

def collidingImports : List Script.ImportDeclaration :=
  [⟨⟨0, 29⟩, "react", false, none, none, [⟨"lazy", "lazy", false⟩]⟩,
    ⟨⟨30, 71⟩, "i18next", false, none, none, [⟨"default", "i18n", false⟩]⟩]

theorem run_answers_colliding :
    ∃ nameOf : ImportKey → String,
      let run := (collidingRequests.mapM Request.ask).run
        (ofModule ["lazy", "i18n", "__pm_meta"] collidingImports)
      run.1 = collidingRequests.map (fun r => nameOf r.key) ∧
      run.1 = ["lazy", "__pm_meta_1", "__pm_meta_2", "__pm_meta_1", "i18n", "__pm_default"] ∧
      nameOf ⟨"./a/meta", .default⟩ ∉ ["lazy", "i18n", "__pm_meta"] ∧
      run.2.declarations = "import __pm_meta_1 from \"./a/meta\";\n" ++
        "import __pm_meta_2 from \"./b/meta\";\n" ++
        "import \x7b default as __pm_default \x7d from \"i18next\";\n" := by
  obtain ⟨-, nameOf, hnames, -, -, hfree, -, -⟩ :=
    @run_answers ["lazy", "i18n", "__pm_meta"] collidingImports (by decide) (by decide)
      collidingRequests
  refine ⟨nameOf, hnames, by decide +kernel, ?_, by decide +kernel⟩
  exact hfree (.default "./a/meta" "meta") (by decide) (by decide)

end SiteMacros.ImportScope
