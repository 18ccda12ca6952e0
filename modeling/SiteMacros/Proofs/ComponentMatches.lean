import SiteMacros.Glob.Search

/-!
# Matching component by component

What a pattern matches can be said without a file tree: its steps match the names of a path
one after another, and `**` stands for any number of names in front of the one that the next
step matches (`Glob.Matches`). A path may match in several ways, since a `**` can leave a name
to another one behind it. How many ways there are is a matter of counting (`Glob.ways`), and
with no more than one `**` there is at most one (`ways_le_one`): then the last names have to
be as many as the steps behind it.
-/

namespace SiteMacros.Glob

/-- The steps match the names of a path. -/
inductive Matches : List Step → List String → Prop
  | nil : Matches [] []
  | name {s : Step} {rest : List Step} {n : String} {ns : List String}
      (admits : s.admits n = true) (tail : Matches rest ns) : Matches (s :: rest) (n :: ns)
  /-- An empty component stands for nothing in front of a name. -/
  | idle {rest : List Step} {n : String} {ns : List String} (tail : Matches rest (n :: ns)) :
      Matches (.literal "" :: rest) (n :: ns)
  /-- `**` right after another adds nothing. -/
  | again {rest : List Step} {ns : List String} (tail : Matches (.deep :: rest) ns) :
      Matches (.deep :: .deep :: rest) ns
  /-- `**` stands for a directory more. -/
  | deeper {next : Step} {rest : List Step} {n : String} {ns : List String}
      (tail : Matches (.deep :: next :: rest) ns) : Matches (.deep :: next :: rest) (n :: ns)
  /-- `**` stands for no more directories, and a name is left to the next step. -/
  | done {next : Step} {rest : List Step} {n : String} {ns : List String}
      (admits : next.admits n = true) (tail : Matches rest ns) :
      Matches (.deep :: next :: rest) (n :: ns)

theorem Step.literal_ne_deep (name : String) : Step.literal name ≠ .deep := nofun

theorem Step.wild_ne_deep (ts : List Token) : Step.wild ts ≠ .deep := nofun

/-- What `count` comes to at each name and those behind it, put together. -/
def waysBelow (count : String → List String → Nat) : List String → Nat
  | [] => 0
  | n :: ns => count n ns + waysBelow count ns

/-- The number of ways in which the steps match the names of a path. -/
def ways : List Step → List String → Nat
  | [], ns => if ns = [] then 1 else 0
  | [.deep], _ => 0
  | .deep :: .deep :: rest, ns => ways (.deep :: rest) ns
  | .deep :: next :: rest, ns =>
      waysBelow (fun n ms => if next.admits n then ways rest ms else 0) ns
  | _ :: _, [] => 0
  | s :: rest, n :: ns =>
      (if s = .literal "" then ways rest (n :: ns) else 0) +
        if s.admits n then ways rest ns else 0

theorem ways_nil_cons (n : String) (ns : List String) : ways [] (n :: ns) = 0 := by
  rw [ways, if_neg (List.cons_ne_nil n ns)]

theorem ways_deep_cons {next : Step} (h : next ≠ .deep) (rest : List Step) (ns : List String) :
    ways (.deep :: next :: rest) ns =
      waysBelow (fun n ms => if next.admits n then ways rest ms else 0) ns := by
  rw [ways]
  exact h

theorem ways_cons_nil {s : Step} (h : s ≠ .deep) (rest : List Step) : ways (s :: rest) [] = 0 := by
  cases s with
  | deep => exact absurd rfl h
  | literal name => rw [ways] <;> simp
  | wild ts => rw [ways] <;> simp

theorem ways_cons {s : Step} (h : s ≠ .deep) (rest : List Step) (n : String) (ns : List String) :
    ways (s :: rest) (n :: ns) =
      (if s = .literal "" then ways rest (n :: ns) else 0) +
        if s.admits n then ways rest ns else 0 := by
  cases s with
  | deep => exact absurd rfl h
  | literal name => rw [ways] <;> simp
  | wild ts => rw [ways] <;> simp

/-! ## Ways and matches -/

theorem exists_of_waysBelow {count : String → List String → Nat} {ns : List String}
    (h : 0 < waysBelow count ns) :
    ∃ before n after, ns = before ++ n :: after ∧ 0 < count n after := by
  induction ns with
  | nil => exact absurd h (Nat.lt_irrefl 0)
  | cons n ns ih =>
      rw [waysBelow] at h
      by_cases hfirst : 0 < count n ns
      · exact ⟨[], n, ns, rfl, hfirst⟩
      · obtain ⟨before, m, after, rfl, hm⟩ := ih (by omega)
        exact ⟨n :: before, m, after, rfl, hm⟩

/-- Names in front do not keep `**` from matching. -/
theorem Matches.deeper_all {next : Step} {rest : List Step} {ns : List String}
    (h : Matches (.deep :: next :: rest) ns) (before : List String) :
    Matches (.deep :: next :: rest) (before ++ ns) := by
  induction before with
  | nil => exact h
  | cons n before ih => exact .deeper ih

theorem ways_deep_le (rest : List Step) (n : String) (ns : List String) :
    ways (.deep :: rest) ns ≤ ways (.deep :: rest) (n :: ns) := by
  induction rest with
  | nil => rw [ways]; exact Nat.zero_le _
  | cons next rest ih =>
      by_cases hnext : next = .deep
      · rw [hnext, ways, ways]
        exact ih
      · rw [ways_deep_cons hnext, ways_deep_cons hnext, waysBelow]
        exact Nat.le_add_left _ _

theorem Matches.ways_pos {ss : List Step} {ns : List String} (h : Matches ss ns) :
    0 < ways ss ns := by
  induction h with
  | nil => exact Nat.one_pos
  | @name s rest n ns admits _ ih =>
      have hs : s ≠ .deep := by
        rintro rfl
        cases admits
      rw [ways_cons hs, if_pos admits]
      exact Nat.lt_of_lt_of_le ih (Nat.le_add_left _ _)
  | idle _ ih =>
      rw [ways_cons (Step.literal_ne_deep ""), if_pos rfl]
      exact Nat.lt_of_lt_of_le ih (Nat.le_add_right _ _)
  | again _ ih =>
      rw [ways]
      exact ih
  | deeper _ ih => exact Nat.lt_of_lt_of_le ih (ways_deep_le _ _ _)
  | @done next rest n ns admits _ ih =>
      have hnext : next ≠ .deep := by
        rintro rfl
        cases admits
      rw [ways_deep_cons hnext, waysBelow, if_pos admits]
      exact Nat.lt_of_lt_of_le ih (Nat.le_add_right _ _)

/-- Steps match names if there is a way to. -/
theorem ways_pos_iff {ss : List Step} {ns : List String} : 0 < ways ss ns ↔ Matches ss ns := by
  refine ⟨fun h => ?_, Matches.ways_pos⟩
  fun_induction ways ss ns with
  | case1 => exact .nil
  | case2 => cases h
  | case3 => cases h
  | case4 rest ns ih => exact .again (ih h)
  | case5 next rest ns _ ih =>
      obtain ⟨before, n, after, rfl, hn⟩ := exists_of_waysBelow h
      split at hn
      · next admits => exact (Matches.done admits (ih after hn)).deeper_all before
      · cases hn
  | case6 => cases h
  | case7 s rest n ns _ _ _ ihidle ihname =>
      rcases Nat.add_pos_iff_pos_or_pos.1 h with h | h
      · split at h
        · next hs =>
            rw [hs]
            exact .idle (ihidle h)
        · cases h
      · split at h
        · next admits => exact .name admits (ihname h)
        · cases h

/-! ## At most one way -/

theorem waysBelow_le_one {count : String → List String → Nat} {k : Nat} {ns : List String}
    (hone : ∀ before n after, ns = before ++ n :: after → count n after ≤ 1)
    (hlength : ∀ before n after, ns = before ++ n :: after → 0 < count n after →
      after.length = k) : waysBelow count ns ≤ 1 := by
  induction ns with
  | nil => exact Nat.zero_le 1
  | cons n ns ih =>
      rw [waysBelow]
      have hfirst := hone [] n ns rfl
      have hrest := ih
        (fun before m after heq => hone (n :: before) m after (congrArg (n :: ·) heq))
        (fun before m after heq => hlength (n :: before) m after (congrArg (n :: ·) heq))
      by_cases hn : 0 < count n ns
      · -- behind this name there are too few for another way
        have hnone : waysBelow count ns = 0 := by
          refine Nat.eq_zero_of_not_pos fun hpos => ?_
          obtain ⟨before, m, after, rfl, hm⟩ := exists_of_waysBelow hpos
          have hk := hlength [] n (before ++ m :: after) rfl hn
          have hk' := hlength (n :: before) m after rfl hm
          rw [List.length_append, List.length_cons] at hk
          omega
        omega
      · omega

section

variable {s : Step} {rest : List Step} {n : String} {ns : List String}

theorem ways_idle (hn : n ≠ "") : ways (.literal "" :: rest) (n :: ns) = ways rest (n :: ns) := by
  have admits : ¬ (Step.literal "").admits n = true := by
    rw [Step.admits, decide_eq_true_eq]
    exact Ne.symm hn
  rw [ways_cons (Step.literal_ne_deep ""), if_pos rfl, if_neg admits, Nat.add_zero]

theorem ways_name (hs : s ≠ .deep) (hidle : s ≠ .literal "") :
    ways (s :: rest) (n :: ns) = if s.admits n then ways rest ns else 0 := by
  rw [ways_cons hs, if_neg hidle, Nat.zero_add]

end

/-- Without `**` there are as many names as steps that stand for one. -/
theorem length_of_ways {ss : List Step} (hss : .deep ∉ ss) {ns : List String} (hns : "" ∉ ns)
    (h : 0 < ways ss ns) : ns.length = ss.countP (· ≠ .literal "") := by
  induction ss generalizing ns with
  | nil =>
      cases ns with
      | nil => rfl
      | cons n ns =>
          rw [ways_nil_cons] at h
          cases h
  | cons s rest ih =>
      rw [List.mem_cons, not_or] at hss
      obtain ⟨hs, hss⟩ := hss
      cases ns with
      | nil =>
          rw [ways_cons_nil (Ne.symm hs)] at h
          cases h
      | cons n ns =>
          have hn : n ≠ "" := fun heq => hns (heq ▸ List.mem_cons_self)
          by_cases hidle : s = .literal ""
          · subst hidle
            rw [ways_idle hn] at h
            rw [ih hss hns h, List.countP_cons_of_neg (by simp)]
          · rw [ways_name (Ne.symm hs) hidle] at h
            split at h
            · rw [List.countP_cons_of_pos (by simpa using hidle), List.length_cons,
                ih hss (fun hmem => hns (List.mem_cons_of_mem n hmem)) h]
            · cases h

/-- A step that is no `**` gives no choice. -/
theorem ways_cons_le_one {s : Step} (hs : s ≠ .deep) {rest : List Step}
    (hrest : ∀ ns, "" ∉ ns → ways rest ns ≤ 1) {ns : List String} (hns : "" ∉ ns) :
    ways (s :: rest) ns ≤ 1 := by
  cases ns with
  | nil =>
      rw [ways_cons_nil hs]
      exact Nat.zero_le 1
  | cons n ns =>
      by_cases hidle : s = .literal ""
      · subst hidle
        rw [ways_idle fun heq => hns (heq ▸ List.mem_cons_self)]
        exact hrest _ hns
      · rw [ways_name hs hidle]
        split
        · exact hrest ns fun hmem => hns (List.mem_cons_of_mem n hmem)
        · exact Nat.zero_le 1

theorem ways_le_one_of_not_mem {ss : List Step} (hss : .deep ∉ ss) {ns : List String}
    (hns : "" ∉ ns) : ways ss ns ≤ 1 := by
  induction ss generalizing ns with
  | nil =>
      rw [ways]
      split
      · exact Nat.le_refl 1
      · exact Nat.zero_le 1
  | cons s rest ih =>
      rw [List.mem_cons, not_or] at hss
      exact ways_cons_le_one (Ne.symm hss.1) (fun _ h => ih hss.2 h) hns

/-- With one `**` there is no more than one way. -/
theorem ways_le_one {ss : List Step} (hss : ss.count .deep ≤ 1) {ns : List String}
    (hns : "" ∉ ns) : ways ss ns ≤ 1 := by
  induction ss generalizing ns with
  | nil => exact ways_le_one_of_not_mem List.not_mem_nil hns
  | cons s rest ih =>
      by_cases hs : s = .deep
      · subst hs
        rw [List.count_cons_self] at hss
        have hss : .deep ∉ rest := List.count_eq_zero.1 (by omega)
        cases rest with
        | nil =>
            rw [ways]
            exact Nat.zero_le 1
        | cons next rest =>
            rw [List.mem_cons, not_or] at hss
            rw [ways_deep_cons (Ne.symm hss.1)]
            have hbehind : ∀ before n after, ns = before ++ n :: after → "" ∉ after :=
              fun before n after heq hmem =>
                hns (heq ▸ List.mem_append_right before (List.mem_cons_of_mem n hmem))
            refine waysBelow_le_one (k := rest.countP (· ≠ .literal ""))
              (fun before n after heq => ?_) fun before n after heq h => ?_
            · split
              · exact ways_le_one_of_not_mem hss.2 (hbehind before n after heq)
              · exact Nat.zero_le 1
            · split at h
              · exact length_of_ways hss.2 (hbehind before n after heq) h
              · cases h
      · rw [List.count_cons_of_ne hs] at hss
        exact ways_cons_le_one hs (fun _ h => ih hss h) hns

end SiteMacros.Glob
