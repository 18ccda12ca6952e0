import SiteMacros.FileTree.Access
import SiteMacros.Proofs.Leads
import SiteMacros.Proofs.Perform

/-!
# The texts in a file tree

What matters of a file tree to those who read files is which text is at which
address (`textAt?`). Every change of files has a plain effect on it: making
directories has none, writing a file changes the text at one address, and removing
a file or a directory takes the texts at and below an address away.

A path that leads through names finds what is at these names (`find_eq_ok_iff`), so
the effects can be said of paths as well.
-/

namespace SiteMacros.FileTree

/-- The text at an address, if there is a file. -/
def textAt? (t : FileTree) (ns : List String) : Option String :=
  match t.get? ns with
  | some (.file text) => some text
  | _ => none

theorem textAt?_eq_some {t : FileTree} {ns : List String} {text : String} :
    t.textAt? ns = some text ↔ t.get? ns = some (.file text) := by
  rw [textAt?]
  split
  · next text' h =>
      rw [h, Option.some.injEq, Option.some.injEq, FileTree.file.injEq]
  · next hnot => exact iff_of_false (fun h => nomatch h) fun h => hnot text h

theorem textAt?_eq_none_of_dir {t : FileTree} {ns : List String} {es : List (String × FileTree)}
    (h : t.get? ns = some (.dir es)) : t.textAt? ns = none := by
  rw [textAt?, h]

theorem textAt?_eq_none_of_get? {t : FileTree} {ns : List String} (h : t.get? ns = none) :
    t.textAt? ns = none := by
  rw [textAt?, h]

theorem textAt?_cons (t : FileTree) (n : String) (ns : List String) :
    t.textAt? (n :: ns) = (t.child? n).bind (·.textAt? ns) := by
  rw [textAt?, get?]
  cases t.child? n <;> rfl

theorem child?_dir (es : List (String × FileTree)) (n : String) :
    (dir es).child? n = es.lookup n := rfl

theorem get?_append (t : FileTree) (ms ns : List String) :
    t.get? (ms ++ ns) = (t.get? ms).bind (·.get? ns) := by
  induction ms generalizing t with
  | nil => rfl
  | cons m ms ih =>
      rw [List.cons_append, get?, get?]
      cases t.child? m with
      | none => rfl
      | some c => exact ih c

theorem textAt?_empty (ns : List String) : empty.textAt? ns = none := by
  cases ns <;> rfl

/-- There is nothing below what is not there. -/
theorem textAt?_append_of_none {t : FileTree} {ms : List String} (h : t.get? ms = none)
    (ns : List String) : t.textAt? (ms ++ ns) = none := by
  rw [textAt?, get?_append, h]
  rfl

/-- What is above something is a directory. -/
theorem exists_dir_of_get?_append {t node : FileTree} {ms ns : List String} (hns : ns ≠ [])
    (h : t.get? (ms ++ ns) = some node) : ∃ es, t.get? ms = some (.dir es) := by
  rw [get?_append] at h
  obtain ⟨c, hc, hnode⟩ := Option.bind_eq_some_iff.1 h
  cases c with
  | dir es => exact ⟨es, hc⟩
  | file text =>
      obtain ⟨n, ns, rfl⟩ := List.exists_cons_of_ne_nil hns
      exact nomatch hnode

/-- A change at one address leaves the others alone, unless one leads through the
other. -/
theorem get?_set_of_apart {t new : FileTree} {ms ns : List String} (h : ¬ ms <+: ns)
    (h' : ¬ ns <+: ms) : (t.set ms new).get? ns = t.get? ns := by
  induction ms generalizing t ns with
  | nil => exact absurd List.nil_prefix h
  | cons m ms ih =>
      cases ns with
      | nil => exact absurd List.nil_prefix h'
      | cons n ns =>
          rw [set, get?, get?, child?_dir]
          by_cases hn : n = m
          · subst hn
            rw [List.cons_prefix_cons] at h h'
            rw [lookup_putEntry_self]
            dsimp only
            rw [ih (fun hp => h ⟨rfl, hp⟩) (fun hp => h' ⟨rfl, hp⟩)]
            cases t.child? n with
            | some c => rfl
            | none =>
                cases ns with
                | nil => exact absurd List.nil_prefix (fun hp => h' ⟨rfl, hp⟩)
                | cons k ns => rfl
          · rw [lookup_putEntry_ne hn]
            rfl

/-- No file is above the address. -/
def Clear (t : FileTree) (ns : List String) : Prop :=
  ∀ ms, ms <+: ns → ms ≠ ns → t.textAt? ms = none

theorem clear_of_get? {t node : FileTree} {ns : List String} (h : t.get? ns = some node) :
    t.Clear ns := by
  rintro ms ⟨rest, rfl⟩ hne
  have hrest : rest ≠ [] := fun hnil => hne (by rw [hnil, List.append_nil])
  obtain ⟨es, hes⟩ := exists_dir_of_get?_append hrest h
  exact textAt?_eq_none_of_dir hes

theorem clear_of_get?_dir {t : FileTree} {ns : List String} {es : List (String × FileTree)}
    (h : t.get? ns = some (.dir es)) (n : String) : t.Clear (ns ++ [n]) := by
  intro ms hms hne
  rcases List.prefix_concat_iff.1 hms with rfl | hms
  · exact absurd rfl hne
  · by_cases heq : ms = ns
    · rw [heq]
      exact textAt?_eq_none_of_dir h
    · exact clear_of_get? h ms hms heq

/-- The texts after something was put at an address. -/
theorem textAt?_set {t new : FileTree} {ms : List String} (hclear : t.Clear ms)
    (ns : List String) :
    (t.set ms new).textAt? ns =
      if ms <+: ns then new.textAt? (ns.drop ms.length) else t.textAt? ns := by
  split
  · next h =>
      obtain ⟨rest, rfl⟩ := h
      rw [List.drop_left, textAt?, get?_append, get?_set_self]
      rfl
  · next h =>
      by_cases h' : ns <+: ms
      · have hne : ns ≠ ms := fun heq => h (heq ▸ List.prefix_refl _)
        rw [hclear ns h' hne]
        exact clear_of_get? (get?_set_self t ms new) ns h' hne
      · rw [textAt?, get?_set_of_apart h h', textAt?]

/-- A file in the place of a file, or of nothing. -/
theorem textAt?_set_file {t : FileTree} {ms : List String} (hclear : t.Clear ms)
    (hnot : ∀ es, t.get? ms ≠ some (.dir es)) (text : String) (ns : List String) :
    (t.set ms (.file text)).textAt? ns = if ns = ms then some text else t.textAt? ns := by
  rw [textAt?_set hclear]
  split
  · next hunder =>
      obtain ⟨rest, rfl⟩ := hunder
      rw [List.drop_left]
      cases rest with
      | nil =>
          rw [if_pos (List.append_nil ms)]
          rfl
      | cons r rest =>
          have hbelow : t.get? (ms ++ r :: rest) = none := by
            rw [get?_append]
            cases hnode : t.get? ms with
            | none => rfl
            | some node =>
                cases node with
                | file text => rfl
                | dir es => exact absurd hnode (hnot es)
          rw [if_neg (by simp), textAt?_eq_none_of_get? hbelow]
          rfl
  · next hunder =>
      rw [if_neg fun heq : ns = ms => hunder (heq ▸ List.prefix_refl _)]

theorem lookup_filter_ne (m n : String) (es : List (String × FileTree)) :
    (es.filter (·.1 != m)).lookup n = if n = m then none else es.lookup n := by
  induction es with
  | nil => simp
  | cons e es ih =>
      obtain ⟨k, c⟩ := e
      by_cases hk : k = m
      · subst hk
        rw [List.filter_cons_of_neg (by simp), ih, List.lookup_cons]
        by_cases hn : n = k
        · rw [if_pos hn, if_pos hn]
        · rw [if_neg hn, if_neg hn, beq_eq_false_iff_ne.2 hn]
      · rw [List.filter_cons_of_pos (by simpa using hk), List.lookup_cons, List.lookup_cons, ih]
        by_cases hn : n = k
        · subst hn
          rw [beq_self_eq_true]
          exact (if_neg hk).symm
        · rw [beq_eq_false_iff_ne.2 hn]

theorem child?_erase_singleton (t : FileTree) (m n : String) :
    (t.erase [m]).child? n = if n = m then none else t.child? n := by
  rw [erase, child?_dir, lookup_filter_ne]
  rfl

theorem child?_erase_cons (t : FileTree) (m : String) {ms : List String} (hms : ms ≠ [])
    (n : String) :
    (t.erase (m :: ms)).child? n =
      if n = m then (t.child? m).map (·.erase ms) else t.child? n := by
  rw [erase]
  · split
    · next c hc =>
        rw [child?_dir]
        by_cases hn : n = m
        · rw [hn, if_pos rfl, lookup_putEntry_self, hc]
          rfl
        · rw [if_neg hn, lookup_putEntry_ne hn]
          rfl
    · next hc =>
        split
        · next hn => rw [hn, hc]; rfl
        · rfl
  · exact hms

theorem Clear.child {t c : FileTree} {n : String} {ns : List String} (h : t.Clear (n :: ns))
    (hc : t.child? n = some c) : c.Clear ns := by
  intro ks hks hne
  have hnone := h (n :: ks) (List.cons_prefix_cons.2 ⟨rfl, hks⟩) fun heq => hne (List.cons.inj heq).2
  rwa [textAt?_cons, hc] at hnone

/-- The texts after something was taken away. -/
theorem textAt?_erase {t : FileTree} {ms : List String} (hms : ms ≠ []) (hclear : t.Clear ms)
    (ns : List String) :
    (t.erase ms).textAt? ns = if ms <+: ns then none else t.textAt? ns := by
  induction ms generalizing t ns with
  | nil => exact absurd rfl hms
  | cons m ms ih =>
      cases ns with
      | nil =>
          -- what is left of a directory is one, and the root is no file before
          have hroot : t.textAt? [] = none := hclear [] List.nil_prefix (Ne.symm hms)
          rw [if_neg (by simp), hroot]
          cases ms with
          | nil => rfl
          | cons m' ms =>
              rw [erase]
              · split
                · rfl
                · exact hroot
              · exact List.cons_ne_nil _ _
      | cons n ns =>
          simp only [List.cons_prefix_cons, textAt?_cons]
          by_cases hrest : ms = []
          · subst hrest
            rw [child?_erase_singleton]
            by_cases hn : n = m
            · rw [if_pos hn, if_pos ⟨hn.symm, List.nil_prefix⟩]
              rfl
            · rw [if_neg hn, if_neg fun h => hn h.1.symm]
          · rw [child?_erase_cons t m hrest]
            by_cases hn : n = m
            · subst hn
              rw [if_pos rfl]
              simp only [true_and]
              cases hc : t.child? n with
              | none => exact (ite_self none).symm
              | some c => exact ih hrest (hclear.child hc) ns
            · rw [if_neg hn, if_neg fun h => hn h.1.symm]

/-! ## Paths -/

/-- The pieces that count when no piece steps out. -/
def named (pieces : List String) : List String :=
  pieces.filter fun q => !(q = "" || q = ".")

theorem named_cons (q : String) (pieces : List String) :
    named (q :: pieces) = if q = "" || q = "." then named pieces else q :: named pieces := by
  rw [named, List.filter_cons]
  cases h : (decide (q = "") || decide (q = ".")) <;> simp [named]

/-- A walk ends where the names lead, and there is something there. -/
theorem walk_eq_ok {t : FileTree} {here pieces dest : List String} (hup : ".." ∉ pieces)
    (h : t.walk here pieces = .ok dest) :
    dest = here ++ named pieces ∧ ((t.get? here).isSome → (t.get? dest).isSome) := by
  induction pieces generalizing here with
  | nil =>
      cases h
      exact ⟨(List.append_nil _).symm, id⟩
  | cons q qs ih =>
      rw [List.mem_cons, not_or] at hup
      rw [walk] at h
      rw [named_cons]
      split at h
      · exact nomatch h
      · exact nomatch h
      · split at h
        · next hidle =>
            rw [if_pos hidle]
            exact ih hup.2 h
        · next hcounts =>
            rw [if_neg hcounts]
            rw [if_neg (Ne.symm hup.1)] at h
            split at h
            · exact nomatch h
            · next node hnode =>
                obtain ⟨hdest, hsome⟩ := ih hup.2 h
                rw [List.append_assoc] at hdest
                exact ⟨hdest, fun _ => hsome (by rw [hnode]; rfl)⟩

/-- The pieces end in a name. -/
def EndInName (pieces : List String) : Prop :=
  ∀ q, pieces.getLast? = some q → ¬ (q = "" ∨ q = ".")

theorem endInName_tail {q : String} {qs : List String} (h : EndInName (q :: qs)) :
    EndInName qs := by
  intro last hlast
  cases qs with
  | nil => exact nomatch hlast
  | cons q' qs => exact h last (by rw [List.getLast?_cons_cons, hlast])

theorem named_ne_nil {pieces : List String} (hne : pieces ≠ []) (h : EndInName pieces) :
    named pieces ≠ [] := by
  have hlast := List.getLast?_eq_some_getLast hne
  refine List.ne_nil_of_mem (a := pieces.getLast hne) (List.mem_filter.2 ⟨List.getLast_mem hne, ?_⟩)
  simpa using h _ hlast

/-- What is before a piece is a directory. -/
theorem exists_dir_of_get?_named {t node : FileTree} {here : List String} {pieces : List String}
    (hne : pieces ≠ []) (h : t.get? (here ++ named pieces) = some node)
    (hend : node.isDirectory = true ∨ EndInName pieces) : ∃ es, t.get? here = some (.dir es) := by
  by_cases hnames : named pieces = []
  · rw [hnames, List.append_nil] at h
    cases node with
    | dir es => exact ⟨es, h⟩
    | file text =>
        rcases hend with hend | hend
        · exact nomatch hend
        · exact absurd hnames (named_ne_nil hne hend)
  · exact exists_dir_of_get?_append hnames h

/-- A walk finds what is where the names lead, if it is a directory or the last
piece is a name. -/
theorem walk_of_get? {t node : FileTree} {here pieces : List String} (hup : ".." ∉ pieces)
    (h : t.get? (here ++ named pieces) = some node)
    (hend : node.isDirectory = true ∨ EndInName pieces) :
    t.walk here pieces = .ok (here ++ named pieces) := by
  induction pieces generalizing here with
  | nil =>
      rw [walk]
      exact congrArg Except.ok (List.append_nil _).symm
  | cons q qs ih =>
      rw [List.mem_cons, not_or] at hup
      obtain ⟨es, hes⟩ := exists_dir_of_get?_named (List.cons_ne_nil q qs) h hend
      have hend' := hend.imp id endInName_tail
      rw [walk, hes]
      dsimp only
      rw [named_cons] at h ⊢
      split
      · next hidle =>
          rw [if_pos hidle] at h
          exact ih hup.2 h hend'
      · next hcounts =>
          rw [if_neg hcounts, List.append_cons] at h
          rw [if_neg (Ne.symm hup.1), List.append_cons here q (named qs)]
          have hq : (t.get? (here ++ [q])).isSome := by
            rw [get?_append] at h
            obtain ⟨c, hc, -⟩ := Option.bind_eq_some_iff.1 h
            rw [hc]
            rfl
          obtain ⟨c, hc⟩ := Option.isSome_iff_exists.1 hq
          rw [hc]
          exact ih hup.2 h hend'

theorem named_of_leads {rs : List (List Char)} {ns : List String}
    (h : (rs.map Path.pieces.inner).filterMap (·.2) = ns.map .name) :
    ".." ∉ rs.map String.ofList ∧ named (rs.map String.ofList) = ns := by
  induction rs generalizing ns with
  | nil => exact ⟨List.not_mem_nil, (List.map_eq_nil_iff.1 h.symm).symm⟩
  | cons r rs ih =>
      rw [List.map_cons, List.filterMap_cons] at h
      rw [List.map_cons, List.mem_cons, not_or, named_cons]
      have hfst := Path.inner_fst r
      split at h
      · next hnone =>
          have hidle := Path.inner_snd_none.1 hnone
          rw [hfst] at hidle
          obtain ⟨hup, hnames⟩ := ih h
          refine ⟨⟨?_, hup⟩, ?_⟩
          · rintro heq
            rcases hidle with hidle | hidle <;> exact absurd (heq.trans hidle) (by decide)
          · rw [if_pos (by simpa using hidle)]
            exact hnames
      · next c hsome =>
          obtain ⟨n, ns, rfl⟩ := List.exists_cons_of_ne_nil (fun hnil => by
            rw [hnil] at h
            exact nomatch h : ns ≠ [])
          obtain ⟨rfl, hrest⟩ := List.cons.inj h
          obtain ⟨hname, hempty, hdot, hparent⟩ := Path.inner_snd_name hsome
          rw [hfst] at hname
          obtain ⟨hup, hnames⟩ := ih hrest
          rw [hname]
          refine ⟨⟨Ne.symm hparent, hup⟩, ?_⟩
          rw [if_neg (by simp [hempty, hdot]), hnames]

/-- The steps of a path that leads through names. -/
theorem steps_of_leads {p : Path} {ns : List String} (hp : p.Leads ns) :
    ".." ∉ steps p ∧ named (steps p) = ns ∧ steps p = "" :: p.pieces.map (·.1) := by
  obtain ⟨cs, hcs⟩ := p.isAbsolute_iff.1 hp.isAbsolute
  have hne : p.text.isEmpty = false := by
    rw [Bool.eq_false_iff, ne_eq, String.isEmpty_iff]
    intro hempty
    rw [hempty] at hcs
    exact nomatch hcs
  have hsteps : steps p = "" :: (Text.pieces '/' cs).map String.ofList := by
    rw [steps, hne, if_neg Bool.false_ne_true, Text.split, hcs, Text.pieces, if_pos rfl]
    rfl
  have hrest := hp.steps
  rw [Path.pieces_absolute hcs] at hrest
  obtain ⟨hup, hnames⟩ := named_of_leads hrest
  refine ⟨?_, ?_, ?_⟩
  · rw [hsteps, List.mem_cons, not_or]
    exact ⟨by decide, hup⟩
  · rw [hsteps, named_cons]
    exact hnames
  · rw [hsteps, Path.pieces_absolute hcs, List.map_map]
    exact congrArg _ (List.map_congr_left fun r _ => (Path.inner_fst r).symm)

theorem endInName_steps {p : Path} {ns : List String} (hp : p.Leads ns) (hend : p.EndsInName) :
    EndInName (steps p) := by
  obtain ⟨cs, hcs⟩ := p.isAbsolute_iff.1 hp.isAbsolute
  have hpieces := Path.pieces_absolute hcs
  intro q hq
  have hne : p.pieces.map (·.1) ≠ [] := by
    rw [hpieces]
    exact fun h => Text.pieces_ne_nil '/' cs (List.map_eq_nil_iff.1 (List.map_eq_nil_iff.1 h))
  rw [(steps_of_leads hp).2.2] at hq
  obtain ⟨r, rs, hrs⟩ := List.exists_cons_of_ne_nil hne
  rw [hrs, List.getLast?_cons_cons, ← hrs, List.getLast?_map] at hq
  obtain ⟨k, hk, rfl⟩ := Option.map_eq_some_iff.1 hq
  have hcounts := hend k hk
  have hmem := List.mem_of_getLast? hk
  rw [hpieces] at hmem
  obtain ⟨r, -, rfl⟩ := List.mem_map.1 hmem
  rw [← Path.inner_snd_none]
  intro hnone
  rw [Path.idle, hnone] at hcounts
  cases hcounts

/-- The address of what a path names is where it leads. -/
theorem address_eq_ok {t : FileTree} {p : Path} {ns dest : List String} (hp : p.Leads ns)
    (h : t.address p = .ok dest) : dest = ns ∧ (t.get? dest).isSome := by
  obtain ⟨hup, hnames, hsteps⟩ := steps_of_leads hp
  rw [address, hsteps] at h
  rw [hsteps] at hup hnames
  obtain ⟨hdest, hsome⟩ := walk_eq_ok hup h
  rw [List.nil_append, hnames] at hdest
  exact ⟨hdest, hsome rfl⟩

theorem address_of_get? {t node : FileTree} {p : Path} {ns : List String} (hp : p.Leads ns)
    (h : t.get? ns = some node) (hend : node.isDirectory = true ∨ p.EndsInName) :
    t.address p = .ok ns := by
  obtain ⟨hup, hnames, hsteps⟩ := steps_of_leads hp
  have hend' := hend.imp id (endInName_steps hp)
  rw [hsteps] at hup hnames hend'
  rw [address, hsteps]
  dsimp only
  have hnode : t.get? ([] ++ named ("" :: p.pieces.map (·.1))) = some node := by
    rwa [List.nil_append, hnames]
  rw [walk_of_get? hup hnode hend', List.nil_append, hnames]

theorem find_eq_ok {t node : FileTree} {p : Path} {ns : List String} (hp : p.Leads ns)
    (h : t.find p = .ok node) : t.get? ns = some node := by
  obtain ⟨dest, hdest, h⟩ := Expansion.exists_of_bind_eq_ok h
  obtain ⟨rfl, -⟩ := address_eq_ok hp hdest
  split at h
  · next node' hnode =>
      cases h
      exact hnode
  · exact nomatch h

/-- A path that ends in a name finds what is where it leads. -/
theorem find_eq_ok_iff {t node : FileTree} {p : Path} {ns : List String} (hp : p.Leads ns)
    (hend : p.EndsInName) : t.find p = .ok node ↔ t.get? ns = some node := by
  refine ⟨find_eq_ok hp, fun h => ?_⟩
  rw [find, address_of_get? hp h (.inr hend)]
  dsimp only [bind, Except.bind]
  rw [h]

theorem readText_eq_ok_iff {t : FileTree} {p : Path} {ns : List String} {text : String}
    (hp : p.Leads ns) (hend : p.EndsInName) :
    t.readText p = .ok text ↔ t.textAt? ns = some text := by
  rw [textAt?_eq_some, ← find_eq_ok_iff hp hend, readText]
  constructor
  · intro h
    obtain ⟨node, hnode, h⟩ := Expansion.exists_of_bind_eq_ok h
    cases node with
    | dir es => exact nomatch h
    | file text' =>
        cases h
        exact hnode
  · intro h
    rw [h]
    rfl

theorem isFile_iff {t : FileTree} {p : Path} {ns : List String} (hp : p.Leads ns)
    (hend : p.EndsInName) : t.isFile p = true ↔ (t.textAt? ns).isSome = true := by
  rw [isFile]
  split
  · next text h =>
      rw [textAt?, find_eq_ok hp h]
      exact iff_of_true rfl rfl
  · next hnot =>
      refine iff_of_false Bool.false_ne_true fun h => ?_
      obtain ⟨text, h⟩ := Option.isSome_iff_exists.1 h
      exact hnot text ((find_eq_ok_iff hp hend).2 (textAt?_eq_some.1 h))

theorem isDir_of_isFile {t : FileTree} {p : Path} (h : t.isFile p = true) :
    t.isDir p = false := by
  rw [isFile] at h
  split at h
  · next text hfind => rw [isDir, hfind]
  · cases h

/-! ## Changes of files -/

theorem directoryAt_eq_ok {t : FileTree} {pieces here : List String}
    (h : t.directoryAt pieces = .ok here) :
    t.walk [] pieces = .ok here ∧ ∃ es, t.get? here = some (.dir es) := by
  obtain ⟨dest, hdest, h⟩ := Expansion.exists_of_bind_eq_ok h
  split at h
  · next es hes =>
      cases h
      exact ⟨hdest, es, hes⟩
  · exact nomatch h
  · exact nomatch h

/-- A new directory has no texts. -/
theorem textAt?_makeDir {t t' : FileTree} {p : Path} (h : t.makeDir p = .ok t')
    (ns : List String) : t'.textAt? ns = t.textAt? ns := by
  rw [makeDir] at h
  split at h
  · exact nomatch h
  · next before name hlast =>
      obtain ⟨here, hhere, h⟩ := Expansion.exists_of_bind_eq_ok h
      obtain ⟨-, es, hes⟩ := directoryAt_eq_ok hhere
      split at h
      · exact nomatch h
      · split at h
        · exact nomatch h
        · next hnone =>
            cases h
            rw [textAt?_set (clear_of_get?_dir hes name)]
            split
            · next hunder =>
                obtain ⟨rest, rfl⟩ := hunder
                rw [textAt?_empty, textAt?_append_of_none hnone]
            · rfl

/-- What each of the directories does that are made the making of them all does, also if it
fails half-way. -/
theorem makeDirsAt_keeps {R : FileTree → FileTree → Prop} (hrefl : ∀ t, R t t)
    (htrans : ∀ {t t' t''}, R t t' → R t' t'' → R t t'') {ps : List Path}
    (h : ∀ a ∈ ps, ∀ t t', t.makeDir a = .ok t' → R t t') (t : FileTree) :
    R t (t.makeDirsAt ps).1 := by
  induction ps generalizing t with
  | nil => exact hrefl t
  | cons p ps ih =>
      obtain ⟨hp, hps⟩ := List.forall_mem_cons.1 h
      have hrest := ih hps t
      rw [makeDirsAt]
      split
      · next t' hmade => exact hp t t' hmade
      · split
        · next t' e hmade =>
            rw [hmade] at hrest
            exact hrest
        · next t' hmade =>
            rw [hmade] at hrest
            split
            · next t'' hmade' => exact htrans hrest (hp t' t'' hmade')
            · exact hrest
      · exact hrefl t

theorem makeDirs_keeps {R : FileTree → FileTree → Prop} (hrefl : ∀ t, R t t)
    (htrans : ∀ {t t' t''}, R t t' → R t' t'' → R t t'') {p : Path}
    (h : ∀ a ∈ p.ancestors, ∀ t t', t.makeDir a = .ok t' → R t t') (t : FileTree) :
    R t (t.makeDirs p).1 := by
  rw [makeDirs]
  split
  · exact hrefl t
  · exact makeDirsAt_keeps hrefl htrans h t

/-- Making directories changes no text. -/
theorem textAt?_makeDirs (t : FileTree) (p : Path) (ns : List String) :
    (t.makeDirs p).1.textAt? ns = t.textAt? ns :=
  makeDirs_keeps (R := fun t t' => t'.textAt? ns = t.textAt? ns) (fun _ => rfl)
    (fun h h' => h'.trans h) (fun _ _ _ _ hmade => textAt?_makeDir hmade ns) t

/-- The last step of a path that ends in a name. -/
theorem lastStep_leads {p : Path} {ns : List String} (hp : p.Leads ns) (hend : p.EndsInName)
    {before : List String} {name : String} (h : lastStep p = some (before, name)) :
    ".." ∉ before ∧ named before ++ [name] = ns := by
  obtain ⟨hup, hnames, hsteps⟩ := steps_of_leads hp
  have hend' := endInName_steps hp hend
  rw [lastStep] at h
  split at h
  · exact nomatch h
  · next last rest hrest =>
      obtain ⟨rfl, rfl⟩ := Prod.mk.inj (Option.some.inj h)
      obtain ⟨hlast, after, hafter, hfull⟩ := Text.dropEndWhile_append_reverse hrest
      -- no piece was dropped at the end
      have hnil : after = [] := by
        refine Decidable.byContradiction fun hne => ?_
        have hsome := List.getLast?_eq_some_getLast hne
        have hlast' : (steps p).getLast? = some (after.getLast hne) := by
          rw [hfull, List.getLast?_append, List.getLast?_cons, hsome]
          rfl
        exact hend' _ hlast' (.inl (by simpa using hafter _ (List.getLast_mem hne)))
      rw [hnil] at hfull
      rw [hfull] at hup hnames hend'
      refine ⟨fun hmem => hup (List.mem_append_left _ hmem), ?_⟩
      have hcounts := hend' last (List.getLast?_concat)
      rw [named, List.filter_append] at hnames
      rw [← hnames]
      congr 1
      simp [not_or.1 hcounts]

/-- Writing a file changes the text at one address. -/
theorem textAt?_writeText {t t' : FileTree} {p : Path} {ms : List String} {text : String}
    (hp : p.Leads ms) (hend : p.EndsInName) (h : t.writeText p text = .ok t') (ns : List String) :
    t'.textAt? ns = if ns = ms then some text else t.textAt? ns := by
  rw [writeText] at h
  split at h
  · exact nomatch h
  · next before name hlast =>
      obtain ⟨here, hhere, h⟩ := Expansion.exists_of_bind_eq_ok h
      obtain ⟨hwalk, es, hes⟩ := directoryAt_eq_ok hhere
      obtain ⟨hup, hnames⟩ := lastStep_leads hp hend hlast
      have hms : here ++ [name] = ms := by
        rw [(walk_eq_ok hup hwalk).1, List.nil_append, hnames]
      split at h
      · exact nomatch h
      · split at h
        · exact nomatch h
        · next hnot =>
            cases h
            rw [hms] at hnot ⊢
            exact textAt?_set_file (hms ▸ clear_of_get?_dir hes name) hnot text ns

/-- Removing a file takes its text away. -/
theorem textAt?_removeFile {t t' : FileTree} {p : Path} {ms : List String} (hp : p.Leads ms)
    (hms : ms ≠ []) (h : t.removeFile p = .ok t') (ns : List String) :
    t'.textAt? ns = if ms <+: ns then none else t.textAt? ns := by
  obtain ⟨here, hhere, h⟩ := Expansion.exists_of_bind_eq_ok h
  obtain ⟨rfl, -⟩ := address_eq_ok hp hhere
  split at h
  · next text hnode =>
      cases h
      exact textAt?_erase hms (clear_of_get? hnode) ns
  · exact nomatch h
  · exact nomatch h

/-- Removing a directory takes the texts below it away. -/
theorem textAt?_removeTree {t : FileTree} {p : Path} {ms : List String} (hp : p.Leads ms)
    (hms : ms ≠ []) (hend : p.EndsInName) {es : List (String × FileTree)}
    (h : t.get? ms = some (.dir es)) (ns : List String) :
    (t.removeTree p).1.textAt? ns = if ms <+: ns then none else t.textAt? ns := by
  have hemptied : ∀ ks, (t.set ms empty).textAt? ks =
      if ms <+: ks then none else t.textAt? ks := by
    intro ks
    rw [textAt?_set (clear_of_get? h)]
    split
    · exact textAt?_empty _
    · rfl
  have hthere := get?_set_self t ms empty
  rw [removeTree, address_of_get? hp h (.inr hend)]
  dsimp only
  rw [h]
  dsimp only
  rw [address_of_get? hp hthere (.inr hend)]
  dsimp only
  split
  · exact hemptied ns
  · exact hemptied ns
  · rw [textAt?_erase hms (clear_of_get? hthere), hemptied]
    split <;> rfl
  · exact hemptied ns

end SiteMacros.FileTree
